/-
Values on the wire (`types.rs`): how a result cell is encoded, and what a bound
parameter that is stored and read back has become.

`decode_param` does not look at the declared type: a binary parameter of four or
eight bytes is an integer and any other a text, a text parameter is an integer or a
real if it reads as one. `wire_round_trip_iff` says which bindings survive that, a
column's affinity and `encode_value`: the integers that are not `int4` in binary, the
texts that do not look like numbers, the byte strings that are texts or eight bytes
long, and three floats.
-/
import Twill.Server.Session
import Twill.Lib.Bytes
import Twill.Lib.Binary64
import Twill.Numerals

namespace Twill.Server

/-! ## Encoding -/

/-- `str::as_bytes`. -/
def utf8Bytes (s : String) : List UInt8 := s.toList.flatMap String.utf8EncodeChar

/-- Postgres `bytea` hex output: `\x` and two digits a byte. -/
def hexBytea (bytes : List UInt8) : String :=
  String.ofList ('\\' :: 'x' :: bytes.flatMap fun b => [Nat.digitChar (b.toNat / 16), Nat.digitChar (b.toNat % 16)])

/-- `encode_text`; `formatFloat` is the text of a float. -/
def encodeText (P : Prims) (formatFloat : UInt64 → String) : Value → List UInt8
  | .null => []
  | .int i => utf8Bytes (toString i)
  | .real r => utf8Bytes (formatFloat r)
  | .text s => utf8Bytes s
  | .blob b => utf8Bytes (hexBytea b)
  | .vector v => utf8Bytes (textOf P (.vector v))

def encodeBinary (P : Prims) : Value → List UInt8
  | .null => []
  | .int i => Bytes.toBe 8 i.toBitVec.toNat
  | .real r => Bytes.toBe 8 r.toNat
  | .text s => utf8Bytes s
  | .blob b => b
  | .vector v => utf8Bytes (textOf P (.vector v))

/-- Encode a value in the requested format (`0` text, `1` binary); `none` is NULL. -/
def encodeValue (P : Prims) (formatFloat : UInt64 → String) (v : Value) (format : Int16) : Option (List UInt8) :=
  if v = .null then none
  else if format = 1 then some (encodeBinary P v)
  else some (encodeText P formatFloat v)

/-! ## Bindings -/

/-- A value as a client binds it, in a type and a format (`1` is binary). -/
inductive Binding where
  | text (s : String) (format : Int16)
  /-- An integer in text format, as `int8` or `int4`: any numeral that reads as it. -/
  | numeral (i : Int64) (t : String) (ht : parseI64 t = some i)
  | int8 (i : Int64)
  | int4 (i : Int32)
  | float8 (bits : UInt64)
  | bytea (bytes : List UInt8)

namespace Binding

def format : Binding → Int16
  | .text _ f => f
  | .numeral .. => 0
  | .int8 _ | .int4 _ | .float8 _ | .bytea _ => 1

/-- The bytes the client sends. -/
def sent : Binding → List UInt8
  | .text s _ => utf8Bytes s
  | .numeral _ t _ => utf8Bytes t
  | .int8 i => Bytes.toBe 8 i.toBitVec.toNat
  | .int4 i => Bytes.toBe 4 i.toBitVec.toNat
  | .float8 bits => Bytes.toBe 8 bits.toNat
  | .bytea bytes => bytes

/-- The class of the column the value is stored in. -/
def column : Binding → ColumnType
  | .text .. => .text
  | .numeral .. | .int8 _ | .int4 _ => .integer
  | .float8 _ => .real
  | .bytea _ => .blob

/-- The value the column holds. -/
def stored (K : Codec) (P : Prims) (b : Binding) : Value :=
  b.column.coerce P (decodeParam K (some b.sent) b.format)

/-- The cell a `SELECT` of it sends back in the same format. -/
def returned (K : Codec) (P : Prims) (F : UInt64 → String) (b : Binding) : Option (List UInt8) :=
  encodeValue P F (b.stored K P) b.format

/-- What was sent comes back: a text is stored as that text, a numeral comes back as a
numeral of the same number, and everything else as the same bytes. -/
def Survives (K : Codec) (P : Prims) (F : UInt64 → String) (b : Binding) : Prop :=
  match b with
  | .text s _ => b.stored K P = .text s ∧ b.returned K P F = some b.sent
  | .numeral i _ _ => ∃ t, b.returned K P F = some (utf8Bytes t) ∧ parseI64 t = some i
  | _ => b.returned K P F = some b.sent

/-- A text that is not read as something else, an integer that is not `int4` in binary,
three floats, and bytes that are eight, or a text of a length other than four. -/
def Kept (K : Codec) : Binding → Prop
  | .text s f =>
    if f = 1 then (utf8Bytes s).length ≠ 4 ∧ (utf8Bytes s).length ≠ 8
    else parseI64 s = none ∧ K.parseF64 s = none
  | .numeral .. | .int8 _ => True
  | .int4 _ => False
  | .float8 bits => bits = 0 ∨ bits = 0x43d0f43d0f43d0f4 ∨ bits = 0xc3ce18f3863ce18f
  | .bytea bytes => bytes.length = 8 ∨ bytes.length ≠ 4 ∧ ∃ s, utf8Bytes s = bytes

end Binding

/-! ## Each binding -/

variable {K : Codec} {P : Prims} {F : UInt64 → String}

theorem fromBe_eq (bytes : List UInt8) : fromBeBytes bytes = Bytes.fromBe bytes := rfl

theorem decode_text {s : String} (hlossy : K.utf8Lossy (utf8Bytes s) = s.toList) {f : Int16} (hf : f ≠ 1) :
    decodeParam K (some (utf8Bytes s)) f = match parseI64 s with
      | some i => .int i
      | none => match K.parseF64 s with
        | some r => .real r
        | none => .text s := by
  simp only [decodeParam, hlossy, String.ofList_toList]
  exact (if_neg hf).trans rfl

theorem decode_long (bytes : List UInt8) (h : bytes.length = 8) :
    decodeParam K (some bytes) 1 = .int (Int64.ofNat (Bytes.fromBe bytes)) := by
  simp only [decodeParam, if_true, h, fromBe_eq]
  rw [if_neg (by decide)]

theorem decode_other {bytes : List UInt8} (h4 : bytes.length ≠ 4) (h8 : bytes.length ≠ 8) :
    decodeParam K (some bytes) 1 = .text (String.ofList (K.utf8Lossy bytes)) := by
  simp only [decodeParam, if_true]
  rw [if_neg h4, if_neg h8]

theorem toNat_ofNat (n : ℕ) : (Int64.ofNat n).toBitVec.toNat = n % 2 ^ 64 :=
  BitVec.toNat_ofNat n 64

namespace Binding

theorem text_survives (s : String) (f : Int16) (hlossy : K.utf8Lossy (utf8Bytes s) = s.toList) :
    (Binding.text s f).Survives K P F ↔ (Binding.text s f).Kept K := by
  have hback : (Binding.text s f).stored K P = .text s → (Binding.text s f).Survives K P F := fun h => by
    refine ⟨h, ?_⟩
    rw [returned, h, encodeValue, if_neg (by simp)]
    split <;> rfl
  by_cases hf : f = 1
  · subst hf
    simp only [Kept, if_true]
    constructor
    · rintro ⟨hstored, -⟩
      constructor <;> intro hlen <;>
        simp [stored, column, sent, format, decodeParam, hlen, ColumnType.coerce] at hstored
    · rintro ⟨h4, h8⟩
      refine hback ?_
      simp only [stored, sent, format, decode_other h4 h8, hlossy, String.ofList_toList]
      rfl
  · simp only [Kept, if_neg hf]
    have hstored : (Binding.text s f).stored K P = match parseI64 s with
        | some i => .int i
        | none => match K.parseF64 s with
          | some r => .real r
          | none => .text s := by
      simp only [stored, sent, format, decode_text hlossy hf, column]
      split
      · rfl
      · split <;> rfl
    constructor
    · rintro ⟨htext, -⟩
      rw [hstored] at htext
      split at htext
      · cases htext
      · rename_i hi
        split at htext
        · cases htext
        · rename_i hr
          exact ⟨hi, hr⟩
    · rintro ⟨hi, hr⟩
      refine hback ?_
      rw [hstored, hi, hr]

theorem numeral_survives {i : Int64} {t : String} (ht : parseI64 t = some i)
    (hlossy : K.utf8Lossy (utf8Bytes t) = t.toList) : (Binding.numeral i t ht).Survives K P F := by
  refine ⟨toString i, ?_, parseI64_toString i⟩
  simp only [returned, stored, sent, format, decode_text hlossy (show (0 : Int16) ≠ 1 by decide), ht]
  rfl

theorem int8_survives (i : Int64) : (Binding.int8 i).Survives K P F := by
  have hlt := i.toBitVec.isLt
  simp only [Survives, returned, stored, sent, format, decode_long _ (Bytes.length_toBe 8 _), Bytes.fromBe_toBe]
  change some (Bytes.toBe 8 (Int64.ofNat (i.toBitVec.toNat % 256 ^ 8)).toBitVec.toNat) = _
  rw [toNat_ofNat, Nat.mod_eq_of_lt (by omega), Nat.mod_eq_of_lt (by omega)]

theorem int4_not_survives (i : Int32) : ¬ (Binding.int4 i).Survives K P F := by
  intro h
  have hlen : (Bytes.toBe 4 i.toBitVec.toNat).length = 4 := Bytes.length_toBe 4 _
  simp only [Survives, returned, stored, sent, format, decodeParam, hlen, if_true, column, ColumnType.coerce,
    encodeValue, encodeBinary] at h
  rw [if_neg (by simp)] at h
  have := congrArg List.length (Option.some.inj h)
  simp at this

theorem bytea_survives (bytes : List UInt8) (hlossy : ∀ s, utf8Bytes s = bytes → K.utf8Lossy bytes = s.toList) :
    (Binding.bytea bytes).Survives K P F ↔ (Binding.bytea bytes).Kept K := by
  simp only [Survives, Kept, returned, stored, sent, format, column]
  by_cases h8 : bytes.length = 8
  · refine iff_of_true ?_ (.inl h8)
    have hlt := Bytes.fromBe_lt bytes
    rw [h8] at hlt
    rw [decode_long bytes h8]
    change some (Bytes.toBe 8 (Int64.ofNat (Bytes.fromBe bytes)).toBitVec.toNat) = _
    rw [toNat_ofNat, Nat.mod_eq_of_lt (by omega), ← h8, Bytes.toBe_fromBe]
  · by_cases h4 : bytes.length = 4
    · refine iff_of_false (fun h => ?_) (by simp [h4])
      simp only [decodeParam, h4, if_true, ColumnType.coerce, encodeValue, encodeBinary] at h
      rw [if_neg (by simp)] at h
      have hlen := congrArg List.length (Option.some.inj h)
      simp [h4] at hlen
    · rw [decode_other h4 h8]
      change some (utf8Bytes (String.ofList (K.utf8Lossy bytes))) = some bytes ↔ _
      simp only [h8, h4, ne_eq, not_false_eq_true, true_and, false_or, Option.some.injEq]
      constructor
      · exact fun h => ⟨_, h⟩
      · rintro ⟨s, hs⟩
        rw [hlossy s hs, String.ofList_toList, hs]

theorem toBits_asF64 (i : Int64) : (asF64 i).toBits.toNat =
    (Float.Model.UnpackedFloat.pack Float.Model.Format.binary64
      (Float.Model.UnpackedFloat.ofInt Float.Model.Format.binary64 i.toInt)).toNat := rfl

theorem float8_survives (bits : UInt64) : (Binding.float8 bits).Survives K P F ↔ (Binding.float8 bits).Kept K := by
  have hlt : bits.toNat < 2 ^ 64 := bits.toNat_lt
  -- The eight bytes are read as an integer, which the column takes to a float.
  obtain ⟨i, hi⟩ : ∃ i, Int64.ofNat bits.toNat = i := ⟨_, rfl⟩
  have hint : i.toInt % 2 ^ 64 = bits.toNat := by
    have hmod : (bits.toNat : Int).bmod Int64.size % (2 ^ 64 : ℕ) = bits.toNat % (2 ^ 64 : ℕ) := Int.bmod_emod
    rw [← hi, Int64.toInt_ofNat']
    omega
  have hreturned : (Binding.float8 bits).returned K P F = some (Bytes.toBe 8 (asF64 i).toBits.toNat) := by
    simp only [returned, stored, sent, format, column, decode_long _ (Bytes.length_toBe 8 _), Bytes.fromBe_toBe]
    rw [Nat.mod_eq_of_lt (by omega), hi]
    rfl
  have hsame : (Binding.float8 bits).Survives K P F ↔ (asF64 i).toBits.toNat = bits.toNat := by
    change returned K P F _ = some (Bytes.toBe 8 bits.toNat) ↔ _
    rw [hreturned, Option.some.injEq]
    refine ⟨fun h => ?_, fun h => by rw [h]⟩
    have hread := congrArg Bytes.fromBe h
    rw [Bytes.fromBe_toBe, Bytes.fromBe_toBe] at hread
    have hbits : (asF64 i).toBits.toNat < 2 ^ 64 := UInt64.toNat_lt _
    omega
  have hfixed := Binary64.bits_ofInt i.le_toInt i.toInt_lt
  rw [hsame, toBits_asF64, show bits.toNat = (i.toInt % 2 ^ 64).toNat by omega, hfixed, Kept]
  have hval (b : UInt64) : bits = b ↔ bits.toNat = b.toNat := UInt64.toNat_inj.symm
  have hrange := i.le_toInt
  have hrange' := i.toInt_lt
  have hzero : (0 : UInt64).toNat = 0 := rfl
  have hpos : (0x43d0f43d0f43d0f4 : UInt64).toNat = 0x43d0f43d0f43d0f4 := rfl
  have hneg : (0xc3ce18f3863ce18f : UInt64).toNat = 0xc3ce18f3863ce18f := rfl
  rw [hval, hval, hval, hzero, hpos, hneg]
  omega

end Binding

/-- **What survives the wire**: a value bound, stored in a column of its class and read
back is what was sent exactly when it is `Kept`. -/
theorem wire_round_trip_iff (K : Codec) (P : Prims) (F : UInt64 → String)
    (hlossy : ∀ s, K.utf8Lossy (utf8Bytes s) = s.toList) (b : Binding) : b.Survives K P F ↔ b.Kept K := by
  cases b with
  | text s f => exact Binding.text_survives s f (hlossy s)
  | numeral i t ht => exact iff_of_true (Binding.numeral_survives ht (hlossy t)) trivial
  | int8 i => exact iff_of_true (Binding.int8_survives i) trivial
  | int4 i => exact iff_of_false (Binding.int4_not_survives i) id
  | float8 bits => exact Binding.float8_survives bits
  | bytea bytes => exact Binding.bytea_survives bytes fun s hs => hs ▸ hlossy s

/-- A codec that reads the UTF-8 texts, and no number with a fraction. -/
def Codec.utf8 : Codec := { Codec.ascii with
  utf8Lossy bytes := match bytes.toByteArray.utf8Decode? with
    | some cs => cs.toList
    | none => ['\uFFFD'] }

theorem utf8Lossy_utf8Bytes (s : String) : Codec.utf8.utf8Lossy (utf8Bytes s) = s.toList := by
  have h : (utf8Bytes s).toByteArray = s.toList.utf8Encode := rfl
  simp only [Codec.utf8, h, List.utf8Decode?_utf8Encode]

/-- A text of three letters is kept. -/
theorem wire_round_trip_abc :
    (∀ s, Codec.utf8.utf8Lossy (utf8Bytes s) = s.toList) ∧
    ((Binding.text "abc" 0).Survives .utf8 Env.bare.prims (fun _ => "") ↔ (Binding.text "abc" 0).Kept .utf8) :=
  ⟨utf8Lossy_utf8Bytes, wire_round_trip_iff .utf8 Env.bare.prims (fun _ => "") utf8Lossy_utf8Bytes (.text "abc" 0)⟩

/-- The text `007` is stored as the integer seven and comes back as another text. -/
theorem wire_loses_zeros :
    (Binding.text "007" 0).stored .utf8 Env.bare.prims = .int 7 ∧
    (Binding.text "007" 0).returned .utf8 Env.bare.prims (fun _ => "") = some (utf8Bytes "7") ∧
    ¬ (Binding.text "007" 0).Survives .utf8 Env.bare.prims fun _ => "" := by
  have hstored : (Binding.text "007" 0).stored .utf8 Env.bare.prims = .int 7 := by
    have hparse : parseI64 "007" = some 7 := by decide
    simp only [Binding.stored, Binding.sent, Binding.format,
      decode_text (utf8Lossy_utf8Bytes "007") (show (0 : Int16) ≠ 1 by decide), hparse]
    rfl
  refine ⟨hstored, ?_, fun h => ?_⟩
  · rw [Binding.returned, hstored]
    decide
  · have htext := h.1
    rw [hstored] at htext
    cases htext

end Twill.Server
