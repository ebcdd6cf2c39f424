/-
Documents written and read back (`json.rs`), and what string literals denote.

Every piece of a string is one step of the reader: `stringRest` on the piece and more text is
the piece's character and what the rest reads as. A document reads as itself by induction on
it, with any text after it that cannot continue a number (`Ends`). A literal of RFC 8259 is a
list of pieces; the reader turns each piece into a character of its own, so a surrogate pair,
two pieces for one character, is where it and the RFC part.
-/
import Twill.Json
import Twill.Lib.Except

namespace Twill

namespace Json

/-! ## The two escapers -/

theorem quoteChar_control {c : Char} (hc : c.toNat < 0x20) : (Nat.toDigits 16 c.toNat).leftpad 4 '0' =
    ['0', '0', if c.toNat < 0x10 then '0' else '1'] ++ Nat.toDigits 16 (c.toNat % 16) := by
  have hall : ∀ n < 0x20, (Nat.toDigits 16 n).leftpad 4 '0' =
      ['0', '0', if n < 0x10 then '0' else '1'] ++ Nat.toDigits 16 (n % 16) := by decide
  exact hall c.toNat hc

theorem jsonEscape_eq (c : Char) : jsonEscape c = quoteChar c := by
  unfold jsonEscape quoteChar
  by_cases hcontrol : c.toNat < 0x20
  · rw [if_pos hcontrol, if_pos hcontrol, quoteChar_control hcontrol]
    rfl
  · rw [if_neg hcontrol, if_neg hcontrol]

/-- The escaper of the SQL functions writes what the document writer does. -/
theorem jsonQuote_eq (s : String) : jsonQuote s = quote s := by
  have hfun : jsonEscape = quoteChar := funext jsonEscape_eq
  rw [jsonQuote, hfun]
  apply String.toList_inj.1
  simp [quote]

/-! ## Strings -/

theorem stringRest_quote (cs : List Char) : stringRest ('"' :: cs) = some ([], cs) := by
  rw [stringRest.eq_def]
  exact if_pos rfl

theorem stringRest_short {e d : Char} (h : shortEscape e = some d) (cs : List Char) :
    stringRest ('\\' :: e :: cs) = (stringRest cs).map fun (s, cs) => (d :: s, cs) := by
  rw [stringRest.eq_def]
  simp [h]

theorem stringRest_unicode {a b c d : Char} {code : ℕ} (h : hexCode a b c d = some code) (cs : List Char) :
    stringRest ('\\' :: 'u' :: a :: b :: c :: d :: cs) =
      (stringRest cs).map fun (s, cs) => (charOrReplacement code :: s, cs) := by
  have hu : shortEscape 'u' = none := by decide
  rw [stringRest.eq_def]
  simp [hu, h]

theorem stringRest_plain {c : Char} (hquote : c ≠ '"') (hslash : c ≠ '\\') (cs : List Char) :
    stringRest (c :: cs) = (stringRest cs).map fun (s, cs) => (c :: s, cs) := by
  rw [stringRest.eq_def]
  dsimp only
  rw [if_neg hquote, if_neg hslash]

/-- A character that is written is read back. -/
theorem stringRest_quoteChar (c : Char) (cs : List Char) :
    stringRest (quoteChar c ++ cs) = (stringRest cs).map fun (s, cs) => (c :: s, cs) := by
  unfold quoteChar
  by_cases hquote : c = '"'
  · rw [if_pos hquote, hquote]
    exact stringRest_short (by decide) cs
  rw [if_neg hquote]
  by_cases hslash : c = '\\'
  · rw [if_pos hslash, hslash]
    exact stringRest_short (by decide) cs
  rw [if_neg hslash]
  by_cases hnewline : c = '\n'
  · rw [if_pos hnewline, hnewline]
    exact stringRest_short (by decide) cs
  rw [if_neg hnewline]
  by_cases hreturn : c = '\r'
  · rw [if_pos hreturn, hreturn]
    exact stringRest_short (by decide) cs
  rw [if_neg hreturn]
  by_cases htab : c = '\t'
  · rw [if_pos htab, htab]
    exact stringRest_short (by decide) cs
  rw [if_neg htab]
  by_cases hcontrol : c.toNat < 0x20
  · rw [if_pos hcontrol]
    have hall : ∀ n < 0x20, ∃ a b c d, (Nat.toDigits 16 n).leftpad 4 '0' = [a, b, c, d] ∧
        hexCode a b c d = some n ∧ charOrReplacement n = Char.ofNat n := by
      intro n hn
      interval_cases n <;> exact ⟨_, _, _, _, rfl, by decide, by decide⟩
    obtain ⟨h₁, h₂, h₃, h₄, hdigits, hcode, hchar⟩ := hall c.toNat hcontrol
    rw [hdigits]
    have hread := stringRest_unicode hcode cs
    rw [hchar, Char.ofNat_toNat] at hread
    exact hread
  · rw [if_neg hcontrol]
    exact stringRest_plain hquote hslash cs

theorem stringRest_flatMap (s rest : List Char) : stringRest (s.flatMap quoteChar ++ '"' :: rest) = some (s, rest) := by
  induction s with
  | nil => exact stringRest_quote rest
  | cons c s ih =>
    rw [List.flatMap_cons, List.append_assoc, stringRest_quoteChar, ih]
    rfl

theorem string_quote (s : String) (rest : List Char) : string ((quote s).toList ++ rest) = some (s, rest) := by
  rw [quote, String.toList_ofList, List.cons_append, List.cons_append, List.append_assoc]
  change (stringRest (s.toList.flatMap quoteChar ++ '"' :: rest)).map _ = _
  rw [stringRest_flatMap]
  simp

/-! ## Numbers -/

theorem nearestDecimal_negative {n : ℕ} (hn : 0 < n) : nearestDecimal .negative n 0 = .ofModel (.ofInt (-n)) := by
  have hcmp : compare (-(n : ℤ)) 0 = .lt := compare_lt_iff_lt.2 (by omega)
  have habs : (-(-(n : ℤ))).toNat = n := by omega
  rw [nearestDecimal, dif_neg hn.ne', if_pos le_rfl]
  simp only [Float.Model.ofInt, Float.Model.UnpackedFloat.ofInt, Float.Model.UnpackedFloat.normalize, hcmp, habs,
    Int.toNat_zero, pow_zero, mul_one]

theorem nearestDecimal_positive (n : ℕ) : nearestDecimal .positive n 0 = .ofModel (.ofInt n) := by
  rcases Nat.eq_zero_or_pos n with rfl | hn
  · rfl
  · have hcmp : compare (n : ℤ) 0 = .gt := compare_gt_iff_gt.2 (by omega)
    rw [nearestDecimal, dif_neg hn.ne', if_pos le_rfl]
    simp only [Float.Model.ofInt, Float.Model.UnpackedFloat.ofInt, Float.Model.UnpackedFloat.normalize, hcmp,
      Int.toNat_natCast, Int.toNat_zero, pow_zero, mul_one]

theorem dropWhile_of_all {α : Type} {p : α → Bool} {xs : List α} (h : xs.all p = true) : xs.dropWhile p = [] :=
  List.dropWhile_eq_nil_iff.2 fun x hx => List.all_eq_true.1 h x hx

theorem takeWhile_of_all {α : Type} {p : α → Bool} {xs : List α} (h : xs.all p = true) : xs.takeWhile p = xs :=
  List.takeWhile_eq_self_iff.2 fun x hx => List.all_eq_true.1 h x hx

/-- A sign and digits are the number they spell. -/
theorem parseF64_digits {cs ds : List Char} {sign : Float.Model.UnpackedFloat.Sign} (hsplit : splitSign cs = (sign, ds))
    (hne : ds ≠ []) (hall : ds.all Char.isDigit = true) :
    parseF64 cs = some (nearestDecimal sign (digitsValue ds) 0) := by
  have hempty : ds.isEmpty = false := List.isEmpty_eq_false_iff.2 hne
  unfold parseF64
  simp only [hsplit, takeWhile_of_all hall, dropWhile_of_all hall, hempty, Bool.false_and, Bool.false_eq_true, if_false,
    exponent, Option.map_some, List.append_nil, List.length_nil, Nat.cast_zero, sub_zero]

theorem splitSign_digits {c : Char} {cs : List Char} (hc : c.isDigit = true) : splitSign (c :: cs) = (.positive, c :: cs) := by
  unfold splitSign
  split
  · rename_i heq
    cases heq
    simp at hc
  · rename_i heq
    cases heq
    simp at hc
  · rfl

/-- The numeral of an integer: its characters and what it reads as. -/
theorem numeral (i : Int64) : (toString i).toList ≠ [] ∧ (∀ c ∈ (toString i).toList, c = '-' ∨ c.isDigit = true) ∧
    parseF64 (toString i).toList = some (asF64 i) := by
  have hmodel : asF64 i = .ofModel (.ofInt i.toInt) := rfl
  have htext : toString i = i.toInt.repr := rfl
  rw [htext, hmodel]
  generalize i.toInt = n
  cases n with
  | ofNat n =>
    obtain ⟨c, cs, hdigits⟩ := List.exists_cons_of_ne_nil (Nat.toDigits_ne_nil (n := n) (b := 10))
    have hlist : (Int.repr (Int.ofNat n)).toList = c :: cs := by rw [Int.repr, Nat.toList_repr, hdigits]
    have hall : (c :: cs).all Char.isDigit = true := hdigits ▸ all_isDigit_toDigits n
    have hvalue : digitsValue (c :: cs) = n := hdigits ▸ foldl_toDigits n
    refine ⟨hlist ▸ List.cons_ne_nil c cs, fun d hd => .inr (List.all_eq_true.1 hall d (hlist ▸ hd)), ?_⟩
    rw [hlist, parseF64_digits (splitSign_digits (List.all_eq_true.1 hall c List.mem_cons_self)) (by simp) hall, hvalue,
      nearestDecimal_positive]
    rfl
  | negSucc n =>
    have hlist : (Int.repr (Int.negSucc n)).toList = '-' :: Nat.toDigits 10 (n + 1) := by
      rw [Int.repr, String.toList_append, Nat.toList_repr]
      rfl
    have hall := all_isDigit_toDigits (n + 1)
    have hvalue : digitsValue (Nat.toDigits 10 (n + 1)) = n + 1 := foldl_toDigits (n + 1)
    refine ⟨hlist ▸ List.cons_ne_nil _ _, fun d hd => ?_, ?_⟩
    · rcases List.mem_cons.1 (hlist ▸ hd) with rfl | hd
      · exact .inl rfl
      · exact .inr (List.all_eq_true.1 hall d hd)
    · have hsplit : splitSign ('-' :: Nat.toDigits 10 (n + 1)) = (.negative, Nat.toDigits 10 (n + 1)) := rfl
      rw [hlist, parseF64_digits hsplit Nat.toDigits_ne_nil hall, hvalue, nearestDecimal_negative (by omega)]
      rfl

/-- What comes after an item of a document. -/
def Ends (rest : List Char) : Prop := ∀ c ∈ rest.head?, c = ',' ∨ c = ']' ∨ c = '\x7d'

theorem number_numeral (i : Int64) {rest : List Char} (hends : Ends rest) :
    number ((toString i).toList ++ rest) = some (.num (asF64 i).toBits, rest) := by
  obtain ⟨hne, hchars, hread⟩ := numeral i
  have hall : ∀ c ∈ (toString i).toList, isNumberChar c = true := by
    intro c hc
    rcases hchars c hc with rfl | hdigit
    · rfl
    · simp [isNumberChar, hdigit]
  have hstop : rest.takeWhile isNumberChar = [] ∧ rest.dropWhile isNumberChar = rest := by
    cases rest with
    | nil => exact ⟨rfl, rfl⟩
    | cons c rest =>
      have hc : isNumberChar c = false := by
        rcases hends c rfl with rfl | rfl | rfl <;> rfl
      exact ⟨by rw [List.takeWhile_cons, hc]; rfl, by rw [List.dropWhile_cons, hc]; rfl⟩
  have htake : ((toString i).toList ++ rest).takeWhile isNumberChar = (toString i).toList := by
    rw [List.takeWhile_append_of_pos hall, hstop.1, List.append_nil]
  have hdrop : ((toString i).toList ++ rest).dropWhile isNumberChar = rest := by
    rw [List.dropWhile_append_of_pos hall, hstop.2]
  have hempty : (toString i).toList.isEmpty = false := List.isEmpty_eq_false_iff.2 hne
  unfold number
  simp only [htake, hdrop, hempty, hread, Bool.false_eq_true, if_false, Option.map_some]

theorem ofBits_toBits (i : Int64) : Float.ofBits (asF64 i).toBits = asF64 i := by
  change Float.ofModel (.pack (asF64 i).toModel.unpack) = _
  rw [unpack_asF64]
  rfl

theorem asI64_asF64 {i : Int64} (hi : i.toInt.natAbs ≤ 2 ^ 53) : asI64 (asF64 i) = i := by
  change Int64.ofIntClamp ((asF64 i).toModel.unpack.toInt _ _) = i
  rw [unpack_asF64, Binary64.toInt_ofInt (log2_int64 i), Binary64.nearestInt_of_le hi, Int64.ofIntClamp_toInt]

theorem asF64_lt {a b : Int64} (ha : a.toInt.natAbs ≤ 2 ^ 53) (hb : b.toInt.natAbs ≤ 2 ^ 53) (h : a.toInt < b.toInt) :
    asF64 a < asF64 b := by
  rw [Binary64.lt_iff, Binary64.compare_eq_rank (asF64_ne_nan a) (asF64_ne_nan b), unpack_asF64, unpack_asF64,
    Binary64.compare_rank_ofInt (log2_int64 a) (log2_int64 b), Binary64.nearestInt_of_le ha, Binary64.nearestInt_of_le hb]
  exact congrArg some (compare_lt_iff_lt.2 h)

theorem asF64_beq (i : Int64) : (asF64 i == asF64 i) = true := by
  rw [Binary64.beq_iff, Binary64.compare_eq_rank (asF64_ne_nan i) (asF64_ne_nan i)]
  exact congrArg some (compare_eq_iff_eq.2 rfl)

theorem asF64_isFinite {i : Int64} : (asF64 i).isFinite = true := by
  change (asF64 i).toModel.unpack.isFinite = true
  rw [unpack_asF64]
  rcases lt_trichotomy i.toInt 0 with hneg | hzero | hpos
  · obtain ⟨m, e, hm, heq, -⟩ := (Binary64.ofInt_neg hneg (log2_int64 i)).finite
    rw [heq]
    rfl
  · rw [hzero]
    rfl
  · obtain ⟨m, e, hm, heq, -⟩ := (Binary64.ofInt_pos hpos (log2_int64 i)).finite
    rw [heq]
    rfl

/-- An integer of fewer than 16 digits is written as its numeral. -/
theorem fmtNum_integer (P : Prims) {i : Int64} (hi : i.toInt.natAbs < 10 ^ 15) :
    fmtNum P (asF64 i).toBits = toString i := by
  have hi' : i.toInt.natAbs ≤ 2 ^ 53 := by omega
  have hlow : (-1000000000000000 : Int64).toInt = -1000000000000000 := by decide
  have hhigh : (1000000000000000 : Int64).toInt = 1000000000000000 := by decide
  have hshort : isShortInteger (asF64 i) = true := by
    unfold isShortInteger
    have habove : asF64 (-1000000000000000) < asF64 i := asF64_lt (by rw [hlow]; norm_num) hi' (by rw [hlow]; omega)
    have hbelow : asF64 i < asF64 1000000000000000 := asF64_lt hi' (by rw [hhigh]; norm_num) (by rw [hhigh]; omega)
    simp only [asF64_isFinite, asI64_asF64 hi', asF64_beq, habove, hbelow, decide_true, Bool.and_self]
  rw [fmtNum, ofBits_toBits, if_pos hshort, asI64_asF64 hi']

/-! ## Documents -/

/-- Every number in the document is an integer of magnitude below `10 ^ 15`. -/
inductive SmallIntegers : Json → Prop
  | null : SmallIntegers .null
  | bool (b : Bool) : SmallIntegers (.bool b)
  | num (i : Int64) (h : i.toInt.natAbs < 10 ^ 15) : SmallIntegers (.num (asF64 i).toBits)
  | str (s : String) : SmallIntegers (.str s)
  | arr (vs : List Json) (h : ∀ v ∈ vs, SmallIntegers v) : SmallIntegers (.arr vs)
  | obj (ms : List (String × Json)) (h : ∀ m ∈ ms, SmallIntegers m.2) : SmallIntegers (.obj ms)

/-- What the reader goes by: the first character of a document. -/
def Opens (c : Char) : Prop := isAsciiWhitespace c = false ∧ c ≠ ']' ∧ c ≠ '\x7d'

theorem opens_numeral {c : Char} (hc : c = '-' ∨ c.isDigit = true) : Opens c ∧ c ≠ '\x7b' ∧ c ≠ '[' ∧ c ≠ '"' ∧
    c ≠ 't' ∧ c ≠ 'f' ∧ c ≠ 'n' := by
  rcases hc with rfl | hdigit
  · exact ⟨⟨rfl, by decide, by decide⟩, by decide, by decide, by decide, by decide, by decide, by decide⟩
  · have hother {d : Char} (hd : d.isDigit = false) : c ≠ d := by
      rintro rfl
      rw [hd] at hdigit
      cases hdigit
    have hspace : isAsciiWhitespace c = false := by
      unfold isAsciiWhitespace
      simp only [Bool.or_eq_false_iff, beq_eq_false_iff_ne]
      exact ⟨⟨⟨⟨hother rfl, hother rfl⟩, hother rfl⟩, hother rfl⟩, hother rfl⟩
    exact ⟨⟨hspace, hother rfl, hother rfl⟩, hother rfl, hother rfl, hother rfl, hother rfl, hother rfl, hother rfl⟩

theorem writeJson_opens (P : Prims) {j : Json} (hj : SmallIntegers j) : ∃ c cs, writeJson P j = c :: cs ∧ Opens c := by
  cases hj with
  | null => exact ⟨'n', _, rfl, rfl, by decide, by decide⟩
  | bool b =>
    cases b with
    | false => exact ⟨'f', _, rfl, rfl, by decide, by decide⟩
    | true => exact ⟨'t', _, rfl, rfl, by decide, by decide⟩
  | num i hi =>
    obtain ⟨hne, hchars, -⟩ := numeral i
    obtain ⟨c, cs, hlist⟩ := List.exists_cons_of_ne_nil hne
    refine ⟨c, cs, ?_, (opens_numeral (hchars c (hlist ▸ List.mem_cons_self))).1⟩
    rw [writeJson, fmtNum_integer P hi, hlist]
  | str s => exact ⟨'"', _, by rw [writeJson, quote, String.toList_ofList]; rfl, rfl, by decide, by decide⟩
  | arr vs h => exact ⟨'[', _, by rw [writeJson]; rfl, rfl, by decide, by decide⟩
  | obj ms h => exact ⟨'\x7b', _, by rw [writeJson]; rfl, rfl, by decide, by decide⟩

theorem ws_opens {c : Char} (hc : Opens c) (cs : List Char) : ws (c :: cs) = c :: cs := by
  rw [ws, List.dropWhile_cons, hc.1]
  rfl

theorem ws_quote (k : String) (rest : List Char) : ws ((quote k).toList ++ rest) = (quote k).toList ++ rest := by
  rw [quote, String.toList_ofList]
  exact ws_opens ⟨rfl, by decide, by decide⟩ _

theorem ws_ends {rest : List Char} (hends : Ends rest) : ws rest = rest := by
  cases rest with
  | nil => rfl
  | cons c rest =>
    have hc : isAsciiWhitespace c = false := by
      rcases hends c rfl with rfl | rfl | rfl <;> rfl
    rw [ws, List.dropWhile_cons, hc]
    rfl

theorem ends_cons {c : Char} (hc : c = ',' ∨ c = ']' ∨ c = '\x7d') (rest : List Char) : Ends (c :: rest) := by
  intro d hd
  cases hd
  exact hc

theorem literal_append (word : List Char) (v : Json) (rest : List Char) :
    literal word v (word ++ rest) = some (v, rest) := by
  have hprefix : word.isPrefixOf (word ++ rest) = true := List.isPrefixOf_iff_prefix.2 (List.prefix_append word rest)
  rw [literal, if_pos hprefix, List.drop_left]

theorem value_num (P : Prims) {i : Int64} (hi : i.toInt.natAbs < 10 ^ 15) (fuel : ℕ) {rest : List Char} (hends : Ends rest) :
    value (fuel + 1) (writeJson P (.num (asF64 i).toBits) ++ rest) = some (.num (asF64 i).toBits, rest) := by
  obtain ⟨hne, hchars, -⟩ := numeral i
  obtain ⟨c, cs, hlist⟩ := List.exists_cons_of_ne_nil hne
  obtain ⟨hopens, hobj, harr, hstr, htrue, hfalse, hnull⟩ := opens_numeral (hchars c (hlist ▸ List.mem_cons_self))
  have hread := number_numeral i hends
  rw [writeJson, fmtNum_integer P hi]
  rw [hlist, List.cons_append] at hread ⊢
  rw [value, ws_opens hopens]
  dsimp only
  rw [if_neg hobj, if_neg harr, if_neg hstr, if_neg htrue, if_neg hfalse, if_neg hnull, hread]

theorem value_str (P : Prims) (s : String) (fuel : ℕ) (rest : List Char) :
    value (fuel + 1) (writeJson P (.str s) ++ rest) = some (.str s, rest) := by
  have hread := string_quote s rest
  obtain ⟨cs, hlist⟩ : ∃ cs, (quote s).toList = '"' :: cs := ⟨_, by rw [quote, String.toList_ofList]; rfl⟩
  rw [writeJson]
  rw [hlist, List.cons_append] at hread ⊢
  rw [value, ws_opens ⟨rfl, by decide, by decide⟩]
  dsimp only
  rw [if_neg (by decide), if_neg (by decide), if_pos rfl, hread]
  rfl

theorem writeItems_cons (P : Prims) (v w : Json) (vs : List Json) :
    writeItems P true (v :: w :: vs) = writeJson P v ++ ',' :: writeItems P true (w :: vs) := by
  simp [writeItems]

theorem writeMembers_cons (P : Prims) (k : String) (v : Json) (m : String × Json) (ms : List (String × Json)) :
    writeMembers P true ((k, v) :: m :: ms) =
      (quote k).toList ++ ':' :: writeJson P v ++ ',' :: writeMembers P true (m :: ms) := by
  obtain ⟨k', v'⟩ := m
  simp [writeMembers]

theorem writeJson_arr (P : Prims) (vs : List Json) (rest : List Char) :
    writeJson P (.arr vs) ++ rest = '[' :: (writeItems P true vs ++ ']' :: rest) := by
  simp [writeJson]

theorem writeJson_obj (P : Prims) (ms : List (String × Json)) (rest : List Char) :
    writeJson P (.obj ms) ++ rest = '\x7b' :: (writeMembers P true ms ++ '\x7d' :: rest) := by
  simp [writeJson]

theorem writeMembers_opens (P : Prims) (m : String × Json) (ms : List (String × Json)) :
    ∃ cs, writeMembers P true (m :: ms) = '"' :: cs := by
  obtain ⟨k, v⟩ := m
  have hquote : (quote k).toList = '"' :: (k.toList.flatMap quoteChar ++ ['"']) := by
    rw [quote, String.toList_ofList, List.cons_append]
  refine ⟨k.toList.flatMap quoteChar ++ ['"'] ++ ':' :: writeJson P v ++ writeMembers P false ms, ?_⟩
  rw [writeMembers, hquote]
  rfl

theorem items_last {fuel : ℕ} {cs rest : List Char} {v : Json} (hv : value fuel cs = some (v, ']' :: rest)) :
    items (fuel + 1) cs = some ([v], rest) := by
  rw [items, hv]
  rfl

theorem items_more {fuel : ℕ} {cs rest rest' : List Char} {v : Json} {vs : List Json}
    (hv : value fuel cs = some (v, ',' :: rest)) (hvs : items fuel rest = some (vs, rest')) :
    items (fuel + 1) cs = some (v :: vs, rest') := by
  have hws : ws (',' :: rest) = ',' :: rest := rfl
  rw [items, hv]
  simp only [Option.bind_eq_bind, Option.bind_some, hws, hvs]
  rfl

theorem members_last {fuel : ℕ} {cs rest after : List Char} {k : String} {v : Json} (hk : string (ws cs) = some (k, ':' :: after))
    (hv : value fuel after = some (v, '\x7d' :: rest)) : members (fuel + 1) cs = some ([(k, v)], rest) := by
  have hws (rest : List Char) : ws (':' :: rest) = ':' :: rest := rfl
  rw [members, hk]
  simp only [Option.bind_eq_bind, Option.bind_some, hws, hv]
  rfl

theorem members_more {fuel : ℕ} {cs rest rest' after : List Char} {k : String} {v : Json} {ms : List (String × Json)}
    (hk : string (ws cs) = some (k, ':' :: after)) (hv : value fuel after = some (v, ',' :: rest))
    (hms : members fuel rest = some (ms, rest')) : members (fuel + 1) cs = some ((k, v) :: ms, rest') := by
  have hcolon (rest : List Char) : ws (':' :: rest) = ':' :: rest := rfl
  have hcomma (rest : List Char) : ws (',' :: rest) = ',' :: rest := rfl
  rw [members, hk]
  simp only [Option.bind_eq_bind, Option.bind_some, hcolon, hcomma, hv, hms]
  rfl

theorem value_arr {fuel : ℕ} {c : Char} {cs rest : List Char} {vs : List Json} (hc : Opens c)
    (hvs : items fuel (c :: cs) = some (vs, rest)) : value (fuel + 1) ('[' :: c :: cs) = some (.arr vs, rest) := by
  rw [value, ws_opens ⟨rfl, by decide, by decide⟩]
  dsimp only
  rw [if_neg (by decide), if_pos rfl, ws_opens hc, hvs]
  split
  · rename_i heq
    exact absurd (List.cons.inj heq).1 hc.2.1
  · rfl

theorem value_obj {fuel : ℕ} {c : Char} {cs rest : List Char} {ms : List (String × Json)} (hc : Opens c)
    (hms : members fuel (c :: cs) = some (ms, rest)) : value (fuel + 1) ('\x7b' :: c :: cs) = some (.obj ms, rest) := by
  rw [value, ws_opens ⟨rfl, by decide, by decide⟩]
  dsimp only
  rw [if_pos rfl, ws_opens hc, hms]
  split
  · rename_i heq
    exact absurd (List.cons.inj heq).1 hc.2.2
  · rfl

/-- The document is read as itself, whatever comes after it. -/
def Reads (P : Prims) (j : Json) : Prop := ∀ fuel rest, 2 * (writeJson P j).length ≤ fuel → Ends rest →
  value (fuel + 1) (writeJson P j ++ rest) = some (j, rest)

theorem items_writeItems {P : Prims} {vs : List Json} (h : ∀ v ∈ vs, Reads P v) (hne : vs ≠ []) (fuel : ℕ)
    (rest : List Char) (hfuel : 2 * (writeItems P true vs).length + 1 ≤ fuel) :
    items (fuel + 1) (writeItems P true vs ++ ']' :: rest) = some (vs, rest) := by
  induction vs generalizing fuel with
  | nil => exact absurd rfl hne
  | cons v vs ih =>
    obtain ⟨fuel, rfl⟩ : ∃ less, fuel = less + 1 := ⟨fuel - 1, by omega⟩
    have hv := h v List.mem_cons_self fuel
    cases vs with
    | nil =>
      have htext : writeItems P true [v] = writeJson P v := by simp [writeItems]
      rw [htext] at hfuel ⊢
      exact items_last (hv (']' :: rest) (by omega) (ends_cons (.inr (.inl rfl)) rest))
    | cons w vs =>
      rw [writeItems_cons, List.length_append, List.length_cons] at hfuel
      rw [writeItems_cons, List.append_assoc]
      have hrest := ih (fun x hx => h x (List.mem_cons_of_mem v hx)) (by simp) fuel (by omega)
      exact items_more (hv _ (by omega) (ends_cons (.inl rfl) _)) hrest

theorem members_writeMembers {P : Prims} {ms : List (String × Json)} (h : ∀ m ∈ ms, Reads P m.2) (hne : ms ≠ []) (fuel : ℕ)
    (rest : List Char) (hfuel : 2 * (writeMembers P true ms).length + 1 ≤ fuel) :
    members (fuel + 1) (writeMembers P true ms ++ '\x7d' :: rest) = some (ms, rest) := by
  induction ms generalizing fuel with
  | nil => exact absurd rfl hne
  | cons m ms ih =>
    obtain ⟨k, v⟩ := m
    obtain ⟨fuel, rfl⟩ : ∃ less, fuel = less + 1 := ⟨fuel - 1, by omega⟩
    have hv : Reads P v := h (k, v) List.mem_cons_self
    have hkey (after : List Char) : string (ws ((quote k).toList ++ ':' :: after)) = some (k, ':' :: after) := by
      rw [ws_quote, string_quote]
    cases ms with
    | nil =>
      have htext : writeMembers P true [(k, v)] = (quote k).toList ++ ':' :: writeJson P v := by simp [writeMembers]
      rw [htext, List.length_append, List.length_cons] at hfuel
      rw [htext, List.append_assoc, List.cons_append]
      exact members_last (hkey _) (hv fuel ('\x7d' :: rest) (by omega) (ends_cons (.inr (.inr rfl)) rest))
    | cons m ms =>
      rw [writeMembers_cons] at hfuel ⊢
      simp only [List.length_append, List.length_cons] at hfuel
      simp only [List.append_assoc, List.cons_append]
      have hrest := ih (fun x hx => h x (List.mem_cons_of_mem (k, v) hx)) (by simp) fuel (by omega)
      exact members_more (hkey _) (hv fuel _ (by omega) (ends_cons (.inl rfl) _)) hrest

/-- A document whose numbers are small integers reads as itself. -/
theorem reads_of_smallIntegers (P : Prims) {j : Json} (hj : SmallIntegers j) : Reads P j := by
  induction hj with
  | null =>
    intro fuel rest _ _
    have htext : writeJson P .null ++ rest = 'n' :: 'u' :: 'l' :: 'l' :: rest := by
      rw [writeJson]
      rfl
    rw [htext, value, ws_opens ⟨rfl, by decide, by decide⟩]
    exact literal_append "null".toList .null rest
  | bool b =>
    intro fuel rest _ _
    cases b with
    | true =>
      have htext : writeJson P (.bool true) ++ rest = 't' :: 'r' :: 'u' :: 'e' :: rest := by
        rw [writeJson]
        rfl
      rw [htext, value, ws_opens ⟨rfl, by decide, by decide⟩]
      exact literal_append "true".toList (.bool true) rest
    | false =>
      have htext : writeJson P (.bool false) ++ rest = 'f' :: 'a' :: 'l' :: 's' :: 'e' :: rest := by
        rw [writeJson]
        rfl
      rw [htext, value, ws_opens ⟨rfl, by decide, by decide⟩]
      exact literal_append "false".toList (.bool false) rest
  | num i hi => exact fun fuel rest _ hends => value_num P hi fuel hends
  | str s => exact fun fuel rest _ _ => value_str P s fuel rest
  | arr vs hvs ih =>
    intro fuel rest hfuel _
    cases vs with
    | nil =>
      rw [writeJson_arr]
      rfl
    | cons v vs =>
      have hlength : (writeJson P (.arr (v :: vs))).length = (writeItems P true (v :: vs)).length + 2 := by
        simp [writeJson]
      obtain ⟨fuel, rfl⟩ : ∃ less, fuel = less + 1 := ⟨fuel - 1, by omega⟩
      have hread := items_writeItems ih (by simp) fuel rest (by omega)
      obtain ⟨c, cs, hlist, hc⟩ := writeJson_opens P (hvs v List.mem_cons_self)
      have hopens : writeItems P true (v :: vs) = c :: (cs ++ writeItems P false vs) := by simp [writeItems, hlist]
      rw [hopens] at hread
      rw [writeJson_arr, hopens]
      exact value_arr hc hread
  | obj ms hms ih =>
    intro fuel rest hfuel _
    cases ms with
    | nil =>
      rw [writeJson_obj]
      rfl
    | cons m ms =>
      have hlength : (writeJson P (.obj (m :: ms))).length = (writeMembers P true (m :: ms)).length + 2 := by
        simp [writeJson]
      obtain ⟨fuel, rfl⟩ : ∃ less, fuel = less + 1 := ⟨fuel - 1, by omega⟩
      have hread := members_writeMembers ih (by simp) fuel rest (by omega)
      obtain ⟨cs, hopens⟩ := writeMembers_opens P m ms
      rw [hopens] at hread
      rw [writeJson_obj, hopens]
      exact value_obj ⟨rfl, by decide, by decide⟩ hread

/-- What is written is parsed back. -/
theorem parse_toJsonText (P : Prims) {j : Json} (hj : SmallIntegers j) : parse (toJsonText P j) = some j := by
  have hread := reads_of_smallIntegers P hj (2 * (writeJson P j).length) [] le_rfl (fun c hc => by cases hc)
  rw [List.append_nil] at hread
  unfold parse toJsonText
  rw [String.toList_ofList, hread]
  rfl

/-! ## Fuel -/

theorem ws_length (cs : List Char) : (ws cs).length ≤ cs.length := (List.dropWhile_suffix _).length_le

theorem stringRest_length {cs s rest : List Char} (h : stringRest cs = some (s, rest)) : rest.length < cs.length := by
  induction hn : cs.length using Nat.strong_induction_on generalizing cs s rest with
  | _ n ih =>
    have hpush {d : Char} {after : List Char} (hless : after.length < n)
        (h : (stringRest after).map (fun (s, cs) => (d :: s, cs)) = some (s, rest)) : rest.length < n := by
      obtain ⟨⟨t, rest'⟩, hread, heq⟩ := Option.map_eq_some_iff.1 h
      cases heq
      exact (ih _ hless hread rfl).trans hless
    rw [stringRest.eq_def] at h
    cases cs with
    | nil => cases h
    | cons c cs =>
      rw [List.length_cons] at hn
      dsimp only at h
      by_cases hquote : c = '"'
      · rw [if_pos hquote] at h
        cases h
        omega
      · rw [if_neg hquote] at h
        by_cases hslash : c = '\\'
        · rw [if_pos hslash] at h
          cases cs with
          | nil => cases h
          | cons e cs =>
            rw [List.length_cons] at hn
            dsimp only at h
            split at h
            · exact hpush (by omega) h
            · split at h
              · split at h
                · rename_i hlist
                  simp only [List.length_cons] at hn
                  split at h
                  · exact hpush (by omega) h
                  · cases h
                · cases h
              · cases h
        · rw [if_neg hslash] at h
          exact hpush (by omega) h

theorem string_length {cs rest : List Char} {s : String} (h : string cs = some (s, rest)) : rest.length < cs.length := by
  unfold string at h
  split at h
  · obtain ⟨⟨t, rest'⟩, hread, heq⟩ := Option.map_eq_some_iff.1 h
    cases heq
    exact (stringRest_length hread).trans (Nat.lt_succ_self _)
  · cases h

theorem number_length {cs rest : List Char} {v : Json} (h : number cs = some (v, rest)) : rest.length < cs.length := by
  have hsplit := congrArg List.length (List.takeWhile_append_dropWhile (p := isNumberChar) (l := cs))
  rw [List.length_append] at hsplit
  unfold number at h
  dsimp only at h
  split at h
  · cases h
  · rename_i hne
    obtain ⟨n, -, heq⟩ := Option.map_eq_some_iff.1 h
    cases heq
    have hpos : 0 < (cs.takeWhile isNumberChar).length := List.length_pos_iff.2 (by simpa using hne)
    omega

theorem literal_length {word cs rest : List Char} {v w : Json} (hword : word ≠ []) (h : literal word v cs = some (w, rest)) :
    rest.length < cs.length := by
  unfold literal at h
  split at h
  · rename_i hprefix
    cases h
    have hle := (List.isPrefixOf_iff_prefix.1 hprefix).length_le
    have hpos := List.length_pos_iff.2 hword
    rw [List.length_drop]
    omega
  · cases h

theorem ws_cons_length {cs rest : List Char} {c : Char} (h : ws cs = c :: rest) : rest.length < cs.length := by
  have hle := ws_length cs
  rw [h, List.length_cons] at hle
  omega

/-- What is read is taken off the text. -/
theorem read_length (fuel : ℕ) :
    (∀ cs v rest, value fuel cs = some (v, rest) → rest.length < cs.length) ∧
    (∀ cs vs rest, items fuel cs = some (vs, rest) → rest.length < cs.length) ∧
    (∀ cs ms rest, members fuel cs = some (ms, rest) → rest.length < cs.length) := by
  induction fuel with
  | zero =>
    refine ⟨?_, ?_, ?_⟩
    · intro cs v rest h
      cases h
    · intro cs vs rest h
      cases h
    · intro cs ms rest h
      cases h
  | succ fuel ih =>
    obtain ⟨hvalue, hitems, hmembers⟩ := ih
    refine ⟨?_, ?_, ?_⟩
    · intro cs v rest h
      rw [value] at h
      cases hws : ws cs with
      | nil =>
        rw [hws] at h
        cases h
      | cons c after =>
        have hafter := ws_cons_length hws
        have hle := ws_length cs
        rw [hws] at h hle
        dsimp only at h
        split at h
        · split at h
          · rename_i hclose
            cases h
            exact (ws_cons_length hclose).trans hafter
          · obtain ⟨⟨ms, rest'⟩, hread, heq⟩ := Option.map_eq_some_iff.1 h
            cases heq
            exact (hmembers _ _ _ hread).trans hafter
        · split at h
          · split at h
            · rename_i hclose
              cases h
              exact (ws_cons_length hclose).trans hafter
            · obtain ⟨⟨vs, rest'⟩, hread, heq⟩ := Option.map_eq_some_iff.1 h
              cases heq
              exact (hitems _ _ _ hread).trans hafter
          · split at h
            · obtain ⟨⟨s, rest'⟩, hread, heq⟩ := Option.map_eq_some_iff.1 h
              cases heq
              exact (string_length hread).trans_le hle
            · split at h
              · exact (literal_length (by decide) h).trans_le hle
              · split at h
                · exact (literal_length (by decide) h).trans_le hle
                · split at h
                  · exact (literal_length (by decide) h).trans_le hle
                  · exact (number_length h).trans_le hle
    · intro cs vs rest h
      rw [items] at h
      obtain ⟨⟨v, after⟩, hread, h⟩ := Option.bind_eq_some_iff.1 h
      have hfirst := hvalue _ _ _ hread
      dsimp only at h
      split at h
      · rename_i hcomma
        obtain ⟨⟨vs', rest'⟩, hmore, heq⟩ := Option.bind_eq_some_iff.1 h
        cases heq
        exact (hitems _ _ _ hmore).trans ((ws_cons_length hcomma).trans hfirst)
      · rename_i hclose
        cases h
        exact (ws_cons_length hclose).trans hfirst
      · cases h
    · intro cs ms rest h
      rw [members] at h
      obtain ⟨⟨k, after⟩, hkey, h⟩ := Option.bind_eq_some_iff.1 h
      have hfirst := (string_length hkey).trans_le (ws_length cs)
      dsimp only at h
      split at h
      · rename_i hcolon
        obtain ⟨⟨v, after'⟩, hread, h⟩ := Option.bind_eq_some_iff.1 h
        have hsecond := (hvalue _ _ _ hread).trans ((ws_cons_length hcolon).trans hfirst)
        dsimp only at h
        split at h
        · rename_i hcomma
          obtain ⟨⟨ms', rest'⟩, hmore, heq⟩ := Option.bind_eq_some_iff.1 h
          cases heq
          exact (hmembers _ _ _ hmore).trans ((ws_cons_length hcomma).trans hsecond)
        · rename_i hclose
          cases h
          exact (ws_cons_length hclose).trans hsecond
        · cases h
      · cases h

/-- More fuel than twice the text is long changes nothing. -/
theorem read_fuel (fuel : ℕ) :
    (∀ cs : List Char, 2 * cs.length + 1 ≤ fuel → value (fuel + 1) cs = value fuel cs) ∧
    (∀ cs : List Char, 2 * cs.length + 2 ≤ fuel → items (fuel + 1) cs = items fuel cs) ∧
    (∀ cs : List Char, 2 * cs.length + 2 ≤ fuel → members (fuel + 1) cs = members fuel cs) := by
  induction fuel with
  | zero => exact ⟨fun cs h => by omega, fun cs h => by omega, fun cs h => by omega⟩
  | succ fuel ih =>
    obtain ⟨hvalue, hitems, hmembers⟩ := ih
    obtain ⟨hlength, -, -⟩ := read_length fuel
    refine ⟨?_, ?_, ?_⟩
    · intro cs hfuel
      rw [value.eq_def (fuel + 1 + 1), value.eq_def (fuel + 1)]
      dsimp only
      cases hws : ws cs with
      | nil => rfl
      | cons c rest =>
        have hrest := ws_cons_length hws
        dsimp only
        rw [hmembers rest (by omega), hitems rest (by omega)]
    · intro cs hfuel
      rw [items.eq_def (fuel + 1 + 1), items.eq_def (fuel + 1)]
      dsimp only
      rw [hvalue cs (by omega)]
      refine Option.bind_congr fun ⟨v, rest⟩ hread => ?_
      have hfirst := hlength _ _ _ hread
      dsimp only
      split
      · rename_i hcomma
        have hafter := (ws_cons_length hcomma).trans hfirst
        rw [hitems _ (by omega)]
      · rfl
      · rfl
    · intro cs hfuel
      rw [members.eq_def (fuel + 1 + 1), members.eq_def (fuel + 1)]
      dsimp only
      refine Option.bind_congr fun ⟨k, rest⟩ hkey => ?_
      have hfirst := (string_length hkey).trans_le (ws_length cs)
      dsimp only
      split
      · rename_i hcolon
        have hsecond := (ws_cons_length hcolon).trans hfirst
        rw [hvalue _ (by omega)]
        refine Option.bind_congr fun ⟨v, rest'⟩ hread => ?_
        have hthird := (hlength _ _ _ hread).trans hsecond
        dsimp only
        split
        · rename_i hcomma
          have hafter := (ws_cons_length hcomma).trans hthird
          rw [hmembers _ (by omega)]
        · rfl
        · rfl
      · rfl

/-- `parse` gives the reader as much fuel as it can use. -/
theorem value_fuel {cs : List Char} {fuel : ℕ} (h : 2 * cs.length + 1 ≤ fuel) : value fuel cs = value (2 * cs.length + 1) cs := by
  induction fuel, h using Nat.le_induction with
  | base => rfl
  | succ fuel h ih => rw [(read_fuel fuel).1 cs h, ih]

/-! ## What literals denote -/

/-- A hexadecimal digit, in either case. -/
structure HexDigit where
  value : Fin 16
  upper : Bool
  deriving DecidableEq

def HexDigit.char (h : HexDigit) : Char := if h.upper then (Nat.digitChar h.value).toUpper else Nat.digitChar h.value

/-- The escapes of RFC 8259 other than `\u`, and what they stand for. -/
def shortEscapes : List (Char × Char) :=
  [('"', '"'), ('\\', '\\'), ('/', '/'), ('b', '\x08'), ('f', '\x0c'), ('n', '\n'), ('r', '\r'), ('t', '\t')]

/-- A `char` of the grammar of RFC 8259. -/
inductive Piece where
  | plain (c : Char) (h : 0x20 ≤ c.toNat ∧ c ≠ '"' ∧ c ≠ '\\')
  | short (e d : Char) (h : (e, d) ∈ shortEscapes)
  | unicode (h₁ h₂ h₃ h₄ : HexDigit)

/-- The UTF-16 code unit of four digits. -/
def codeUnit (h₁ h₂ h₃ h₄ : HexDigit) : Nat :=
  ((h₁.value.val * 16 + h₂.value.val) * 16 + h₃.value.val) * 16 + h₄.value.val

def Piece.text : Piece → List Char
  | .plain c _ => [c]
  | .short e _ _ => ['\\', e]
  | .unicode h₁ h₂ h₃ h₄ => ['\\', 'u', h₁.char, h₂.char, h₃.char, h₄.char]

/-- The literal made of these pieces. -/
def literalText (ps : List Piece) : String := String.ofList ('"' :: ps.flatMap Piece.text ++ ['"'])

def isHighSurrogate (u : Nat) : Bool := 0xD800 ≤ u && u ≤ 0xDBFF

def isLowSurrogate (u : Nat) : Bool := 0xDC00 ≤ u && u ≤ 0xDFFF

def Piece.isSurrogate : Piece → Bool
  | .unicode h₁ h₂ h₃ h₄ => isHighSurrogate (codeUnit h₁ h₂ h₃ h₄) || isLowSurrogate (codeUnit h₁ h₂ h₃ h₄)
  | _ => false

/-- The characters that the pieces denote; a surrogate outside a pair denotes none. -/
def denote : List Piece → Option (List Char)
  | [] => some []
  | .plain c _ :: ps => (denote ps).map (c :: ·)
  | .short _ d _ :: ps => (denote ps).map (d :: ·)
  | .unicode h₁ h₂ h₃ h₄ :: ps =>
    let u := codeUnit h₁ h₂ h₃ h₄
    if isHighSurrogate u then
      match ps with
      | .unicode l₁ l₂ l₃ l₄ :: ps =>
        let l := codeUnit l₁ l₂ l₃ l₄
        if isLowSurrogate l then (denote ps).map (Char.ofNat (0x10000 + (u - 0xD800) * 0x400 + (l - 0xDC00)) :: ·)
        else none
      | _ => none
    else if isLowSurrogate u then none
    else (denote ps).map (Char.ofNat u :: ·)

/-- The character that the reader makes of a piece. -/
def Piece.read : Piece → Char
  | .plain c _ => c
  | .short _ d _ => d
  | .unicode h₁ h₂ h₃ h₄ => charOrReplacement (codeUnit h₁ h₂ h₃ h₄)

theorem hexDigit_char (h : HexDigit) : hexDigit h.char = some h.value.val := by
  obtain ⟨v, upper⟩ := h
  have hall : ∀ (v : Fin 16) (upper : Bool), hexDigit (HexDigit.char ⟨v, upper⟩) = some v.val := by decide
  exact hall v upper

theorem hexCode_char (h₁ h₂ h₃ h₄ : HexDigit) : hexCode h₁.char h₂.char h₃.char h₄.char = some (codeUnit h₁ h₂ h₃ h₄) := by
  simp [hexCode, hexDigit_char, codeUnit]

theorem shortEscape_of_mem {e d : Char} (h : (e, d) ∈ shortEscapes) : shortEscape e = some d := by
  have hall : ∀ p ∈ shortEscapes, shortEscape p.1 = some p.2 := by decide
  exact hall (e, d) h

theorem stringRest_piece (p : Piece) (cs : List Char) :
    stringRest (p.text ++ cs) = (stringRest cs).map fun (s, cs) => (p.read :: s, cs) := by
  cases p with
  | plain c h => exact stringRest_plain h.2.1 h.2.2 cs
  | short e d h => exact stringRest_short (shortEscape_of_mem h) cs
  | unicode h₁ h₂ h₃ h₄ => exact stringRest_unicode (hexCode_char h₁ h₂ h₃ h₄) cs

theorem stringRest_pieces (ps : List Piece) (rest : List Char) :
    stringRest (ps.flatMap Piece.text ++ '"' :: rest) = some (ps.map Piece.read, rest) := by
  induction ps with
  | nil => exact stringRest_quote rest
  | cons p ps ih =>
    rw [List.flatMap_cons, List.append_assoc, stringRest_piece, ih]
    rfl

/-- A literal is read piece by piece. -/
theorem parse_literalText (ps : List Piece) : parse (literalText ps) = some (.str (String.ofList (ps.map Piece.read))) := by
  have hread : string ('"' :: (ps.flatMap Piece.text ++ ['"'])) = some (String.ofList (ps.map Piece.read), []) := by
    change (stringRest (ps.flatMap Piece.text ++ '"' :: [])).map _ = _
    rw [stringRest_pieces]
    rfl
  unfold parse literalText
  rw [String.toList_ofList, List.cons_append, value, ws_opens ⟨rfl, by decide, by decide⟩]
  dsimp only
  rw [if_neg (by decide), if_neg (by decide), if_pos rfl, hread]
  rfl

theorem read_of_not_surrogate {h₁ h₂ h₃ h₄ : HexDigit} (hhigh : isHighSurrogate (codeUnit h₁ h₂ h₃ h₄) = false)
    (hlow : isLowSurrogate (codeUnit h₁ h₂ h₃ h₄) = false) :
    (Piece.unicode h₁ h₂ h₃ h₄).read = Char.ofNat (codeUnit h₁ h₂ h₃ h₄) := by
  have hbound : codeUnit h₁ h₂ h₃ h₄ < 0x10000 := by
    unfold codeUnit
    omega
  have hvalid : (codeUnit h₁ h₂ h₃ h₄).isValidChar := by
    simp only [isHighSurrogate, isLowSurrogate, Bool.and_eq_false_iff, decide_eq_false_iff_not] at hhigh hlow
    unfold Nat.isValidChar
    omega
  exact if_pos hvalid

/-- No piece is a surrogate and the reader makes of them what they denote; or one is, and it makes
more characters of them than they denote. -/
def ReadOrMore (ps : List Piece) (s : List Char) : Prop :=
  ((∀ p ∈ ps, p.isSurrogate = false) ∧ ps.map Piece.read = s) ∨ ((∃ p ∈ ps, p.isSurrogate = true) ∧ s.length < ps.length)

theorem ReadOrMore.cons {ps : List Piece} {s : List Char} (h : ReadOrMore ps s) {p : Piece} (hp : p.isSurrogate = false) :
    ReadOrMore (p :: ps) (p.read :: s) := by
  rcases h with ⟨hnone, hread⟩ | ⟨⟨q, hq, hsurrogate⟩, hmore⟩
  · refine .inl ⟨fun q hq => ?_, by rw [List.map_cons, hread]⟩
    rcases List.mem_cons.1 hq with rfl | hq
    · exact hp
    · exact hnone q hq
  · exact .inr ⟨⟨q, List.mem_cons_of_mem p hq, hsurrogate⟩, Nat.succ_lt_succ hmore⟩

theorem ReadOrMore.pair {ps : List Piece} {s : List Char} (h : ReadOrMore ps s) {p : Piece} (hp : p.isSurrogate = true)
    (q : Piece) (c : Char) : ReadOrMore (p :: q :: ps) (c :: s) := by
  refine .inr ⟨⟨p, List.mem_cons_self, hp⟩, ?_⟩
  rcases h with ⟨-, hread⟩ | ⟨-, hmore⟩
  · rw [← hread]
    simp
  · simp only [List.length_cons]
    omega

theorem readOrMore {ps : List Piece} {s : List Char} (h : denote ps = some s) : ReadOrMore ps s := by
  induction ps using denote.induct generalizing s with
  | case1 =>
    cases h
    exact .inl ⟨by simp, rfl⟩
  | case2 c hc ps ih =>
    rw [denote] at h
    obtain ⟨t, ht, rfl⟩ := Option.map_eq_some_iff.1 h
    exact (ih ht).cons (p := .plain c hc) rfl
  | case3 e d hd ps ih =>
    rw [denote] at h
    obtain ⟨t, ht, rfl⟩ := Option.map_eq_some_iff.1 h
    exact (ih ht).cons (p := .short e d hd) rfl
  | case4 h₁ h₂ h₃ h₄ u hhigh l₁ l₂ l₃ l₄ ps l hlow =>
    rename_i ih
    -- a pair is one character
    rw [denote] at h
    dsimp only at h
    rw [if_pos hhigh, if_pos hlow] at h
    obtain ⟨t, ht, rfl⟩ := Option.map_eq_some_iff.1 h
    have hfirst : (Piece.unicode h₁ h₂ h₃ h₄).isSurrogate = true := by
      rw [Piece.isSurrogate, hhigh]
      rfl
    exact (ih ht).pair hfirst _ _
  | case5 h₁ h₂ h₃ h₄ u hhigh l₁ l₂ l₃ l₄ ps l =>
    rename_i hlow
    rw [denote] at h
    dsimp only at h
    rw [if_pos hhigh, if_neg hlow] at h
    cases h
  | case6 h₁ h₂ h₃ h₄ ps u hhigh =>
    rename_i hnone
    rw [denote, if_pos hhigh] at h
    · cases h
    · exact hnone
  | case7 h₁ h₂ h₃ h₄ ps u hhigh =>
    rename_i hlow
    rw [denote.eq_def] at h
    dsimp only at h
    rw [if_neg hhigh, if_pos hlow] at h
    cases h
  | case8 h₁ h₂ h₃ h₄ ps u hhigh hlow =>
    rename_i ih
    rw [denote.eq_def] at h
    dsimp only at h
    rw [if_neg hhigh, if_neg hlow] at h
    obtain ⟨t, ht, rfl⟩ := Option.map_eq_some_iff.1 h
    rw [Bool.not_eq_true] at hhigh hlow
    rw [← read_of_not_surrogate hhigh hlow]
    exact (ih ht).cons (p := .unicode h₁ h₂ h₃ h₄) (by rw [Piece.isSurrogate, hhigh, hlow]; rfl)

/-- **JSON text.** A document whose numbers are integers of magnitude below `10 ^ 15` parses back
as it was, duplicate keys in their order; a string literal parses as the characters it denotes
exactly when none of them is spelled as a surrogate pair; and the two escapers agree. -/
theorem json_text_iff (P : Prims) :
    (∀ j, SmallIntegers j → parse (toJsonText P j) = some j) ∧
    (∀ ps s, denote ps = some s →
      (parse (literalText ps) = some (.str (String.ofList s)) ↔ ∀ p ∈ ps, p.isSurrogate = false)) ∧
    ∀ s, jsonQuote s = quote s := by
  refine ⟨fun j hj => parse_toJsonText P hj, fun ps s hdenote => ?_, jsonQuote_eq⟩
  rw [parse_literalText]
  rcases readOrMore hdenote with ⟨hnone, hread⟩ | ⟨⟨p, hp, hsurrogate⟩, hmore⟩
  · exact ⟨fun _ => hnone, fun _ => by rw [hread]⟩
  · constructor
    · intro hread
      have hmap : ps.map Piece.read = s := String.ofList_injective (Json.str.inj (Option.some.inj hread))
      rw [← hmap, List.length_map] at hmore
      exact absurd hmore (lt_irrefl _)
    · intro hnone
      rw [hnone p hp] at hsurrogate
      cases hsurrogate

/-- One character spelled as a pair, and the two that are read. -/
theorem json_text_pair :
    ∃ ps s, literalText ps = "\"\\ud83d\\ude00\"" ∧ denote ps = some s ∧ s = [Char.ofNat 0x1F600] ∧
      parse (literalText ps) = some (.str "\ufffd\ufffd") ∧ parse (literalText ps) ≠ some (.str (String.ofList s)) := by
  refine ⟨[.unicode ⟨13, false⟩ ⟨8, false⟩ ⟨3, false⟩ ⟨13, false⟩, .unicode ⟨13, false⟩ ⟨14, false⟩ ⟨0, false⟩ ⟨0, false⟩],
    [Char.ofNat 0x1F600], by decide, by decide, rfl, parse_literalText _, ?_⟩
  rw [parse_literalText]
  intro hread
  have hmap := String.ofList_injective (Json.str.inj (Option.some.inj hread))
  exact absurd hmap (by decide)

end Json

end Twill
