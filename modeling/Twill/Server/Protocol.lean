/-
Reading messages of the wire protocol (`protocol.rs`).

The counts of a message are signed sixteen-bit numbers and become sizes through
`as usize`. `read_message` says what follows: a negative count is a capacity
overflow, every other stream is a message, the end or an error, within a fixed
multiple of its declared length, and a message that was written is read back.
-/
import Twill.Lib.Bytes
import Twill.Lib.Utf8
import Twill.Lib.CountedReader
import Twill.Server.Session

namespace Twill.Server

open CountedReader

/-! ## The cursor over a body -/

namespace Cursor

/-- `Cursor::take`: the bytes are copied. -/
def take (n : ℕ) : Reader (List UInt8) := copying 1 (CountedReader.take (.invalid "message truncated") n)

def u8 : Reader UInt8 := (fun bytes => bytes.headD 0) <$> take 1

def i16 : Reader Int16 := (fun bytes => Int16.ofNat (Bytes.fromBe bytes)) <$> take 2

def i32 : Reader Int32 := (fun bytes => Int32.ofNat (Bytes.fromBe bytes)) <$> take 4

/-- A replacement character takes three bytes for one, and a string that grows doubles. -/
def cstr : Reader (List Char) := Utf8.lossy <$> copying 6 (upTo (.invalid "unterminated string") 0)

end Cursor

/-- `as usize` of a signed number. -/
def asUsize (n : ℤ) : ℕ := (n % 2 ^ 64).toNat

/-- A count, and as many items of that size in memory. -/
def counted {α : Type} (size : ℕ) (item : Reader α) : Reader (List α) := do
  let n ← Cursor.i16
  withCapacity (asUsize n.toInt) size
  ByteReader.times (asUsize n.toInt) item

/-- A bound parameter; a negative length is NULL. -/
def boundParam : Reader (Option (List UInt8)) := do
  let plen ← Cursor.i32
  if plen.toInt < 0 then return none else some <$> Cursor.take (asUsize plen.toInt)

/-! ## Messages -/

def byteKind (b : UInt8) : Char := Char.ofNat b.toNat

/-- The message with this tag, from its body. -/
def decodeBody (tag : UInt8) : Reader Frontend :=
  match byteKind tag with
  | 'Q' => Frontend.query <$> Cursor.cstr
  | 'P' => do
    let name ← Cursor.cstr
    let sql ← Cursor.cstr
    let paramOids ← counted 4 Cursor.i32
    return .parse (String.ofList name) sql paramOids
  | 'B' => do
    let portal ← Cursor.cstr
    let stmt ← Cursor.cstr
    let paramFormats ← counted 2 Cursor.i16
    let params ← counted 24 boundParam
    let resultFormats ← counted 2 Cursor.i16
    return .bind (String.ofList portal) (String.ofList stmt) paramFormats params resultFormats
  | 'D' => do
    let kind ← Cursor.u8
    let name ← Cursor.cstr
    return .describe (byteKind kind) (String.ofList name)
  | 'E' => do
    let portal ← Cursor.cstr
    let maxRows ← Cursor.i32
    return .execute (String.ofList portal) maxRows
  | 'S' => return .sync
  | 'H' => return .flush
  | 'C' => do
    let kind ← Cursor.u8
    let name ← Cursor.cstr
    return .close (byteKind kind) (String.ofList name)
  | 'X' => return .terminate
  | other => return .unsupported other

/-- `read_i32`. -/
def readI32 : Reader Int32 := (fun bytes => Int32.ofNat (Bytes.fromBe bytes)) <$> CountedReader.take .eof 4

/-- `read_message`: `none` at a clean end. -/
def readMessage : Reader (Option Frontend) := do
  if ← ByteReader.atEnd then return none
  let tag ← CountedReader.take .eof 1
  let len ← readI32
  if len.toInt < 4 ∨ 2 ^ 30 < len.toInt then CountedReader.fail (.invalid "implausible message length")
  ask (asUsize (len.toInt - 4))
  let body ← CountedReader.take .eof (asUsize (len.toInt - 4))
  some <$> within body (decodeBody (tag.headD 0))

/-! ## The encoding -/

def putCstr (s : List Char) : List UInt8 := s.flatMap String.utf8EncodeChar ++ [0]

def putI16 (n : Int16) : List UInt8 := Bytes.toBe 2 n.toBitVec.toNat

def putI32 (n : Int32) : List UInt8 := Bytes.toBe 4 n.toBitVec.toNat

def putCounted {α : Type} (put : α → List UInt8) (items : List α) : List UInt8 :=
  Bytes.toBe 2 items.length ++ items.flatMap put

def putParam : Option (List UInt8) → List UInt8
  | none => putI32 (-1)
  | some bytes => Bytes.toBe 4 bytes.length ++ bytes

namespace Frontend

def tag : Frontend → Char
  | query _ => 'Q'
  | parse .. => 'P'
  | bind .. => 'B'
  | describe .. => 'D'
  | execute .. => 'E'
  | close .. => 'C'
  | sync => 'S'
  | flush => 'H'
  | terminate => 'X'
  | unsupported tag => tag

def body : Frontend → List UInt8
  | query sql => putCstr sql
  | parse name sql paramOids => putCstr name.toList ++ (putCstr sql ++ putCounted putI32 paramOids)
  | bind portal stmt paramFormats params resultFormats =>
    putCstr portal.toList ++ (putCstr stmt.toList ++
      (putCounted putI16 paramFormats ++ (putCounted putParam params ++ putCounted putI16 resultFormats)))
  | describe kind name | close kind name => UInt8.ofNat kind.toNat :: putCstr name.toList
  | execute portal maxRows => putCstr portal.toList ++ putI32 maxRows
  | sync | flush | terminate | unsupported _ => []

/-- The message on the wire: its tag, its length, which counts itself, and its body. -/
def encode (m : Frontend) : List UInt8 :=
  UInt8.ofNat m.tag.toNat :: (Bytes.toBe 4 (m.body.length + 4) ++ m.body)

/-- What the protocol can carry: strings without NUL, lists below `2^15`. -/
def Fields : Frontend → Prop
  | query sql => '\x00' ∉ sql
  | parse name sql paramOids => '\x00' ∉ name.toList ∧ '\x00' ∉ sql ∧ paramOids.length < 2 ^ 15
  | bind portal stmt paramFormats params resultFormats =>
    '\x00' ∉ portal.toList ∧ '\x00' ∉ stmt.toList ∧ paramFormats.length < 2 ^ 15 ∧ params.length < 2 ^ 15 ∧
      resultFormats.length < 2 ^ 15
  | describe kind name | close kind name => kind.toNat < 256 ∧ '\x00' ∉ name.toList
  | execute portal _ => '\x00' ∉ portal.toList
  | sync | flush | terminate => True
  | unsupported _ => False

def WellFormed (m : Frontend) : Prop := m.Fields ∧ m.encode.length < 2 ^ 30

end Frontend

/-! ## Negative counts -/

/-- A count with its sign bit, at the front. -/
def Negative (bytes : List UInt8) : Prop := ∃ high low rest, bytes = high :: low :: rest ∧ 128 ≤ high.toNat

/-- The bytes of one bound parameter: a length, and that many bytes unless it is negative. -/
def IsParam (bytes : List UInt8) : Prop :=
  ∃ n value, bytes = Bytes.toBe 4 n ++ value ∧ n < 2 ^ 32 ∧ value.length = if n < 2 ^ 31 then n else 0

/-- A count that is not negative and that many items at the front, and what follows them. -/
def PastCount (item : List UInt8 → Prop) (bytes more : List UInt8) : Prop :=
  ∃ items : List (List UInt8), items.length < 2 ^ 15 ∧ bytes = Bytes.toBe 2 items.length ++ (items.flatten ++ more) ∧
    ∀ x ∈ items, item x

/-- One of the counts of a `Bind`, past those before it: the parameter formats, the
parameters, the result formats. -/
def NegativeBind (bytes : List UInt8) : Prop :=
  Negative bytes ∨ ∃ params, PastCount (fun x => x.length = 2) bytes params ∧
    (Negative params ∨ ∃ results, PastCount IsParam params results ∧ Negative results)

/-- After two strings, the count of a `Parse` or one of the counts of a `Bind`. -/
def NegativeBody (tag : UInt8) (body : List UInt8) : Prop :=
  ∃ a b more, 0 ∉ a ∧ 0 ∉ b ∧ body = a ++ 0 :: (b ++ 0 :: more) ∧
    (byteKind tag = 'P' ∧ Negative more ∨ byteKind tag = 'B' ∧ NegativeBind more)

/-- The first message of the stream is whole and has a negative count. -/
def NegativeCount (stream : List UInt8) : Prop :=
  ∃ tag body unread, stream = tag :: (Bytes.toBe 4 (body.length + 4) ++ (body ++ unread)) ∧
    body.length + 4 ≤ 2 ^ 30 ∧ NegativeBody tag body

/-- The declared length of the first message, as an unsigned number. -/
def declared (stream : List UInt8) : ℕ := Bytes.fromBe ((stream.drop 1).take 4)

/-! ## What each part takes -/

theorem take_shape (n : ℕ) : Shape 6 (Cursor.take n) (fun bytes a => bytes.length = n ∧ a = bytes) (fun _ => False) 0 := by
  have hcopy := (Shape.take (.invalid "message truncated") (by simp) n).copying (fun x a h => by rw [h.2]) 1
  exact hcopy.mono (by omega) le_rfl (fun _ _ => Iff.rfl) (fun _ => Iff.rfl)

theorem u8_shape : Shape 6 Cursor.u8 (fun bytes b => bytes = [b]) (fun _ => False) 0 := by
  refine ((take_shape 1).map fun bytes => bytes.headD 0).mono le_rfl le_rfl (fun bytes b => ?_) (fun _ => Iff.rfl)
  constructor
  · rintro ⟨_, ⟨hlen, rfl⟩, rfl⟩
    obtain ⟨b, rfl⟩ := List.length_eq_one_iff.1 hlen
    rfl
  · rintro rfl
    exact ⟨[b], ⟨rfl, rfl⟩, rfl⟩

theorem i16_shape :
    Shape 6 Cursor.i16 (fun bytes n => bytes.length = 2 ∧ n = Int16.ofNat (Bytes.fromBe bytes)) (fun _ => False) 0 := by
  refine ((take_shape 2).map fun bytes => Int16.ofNat (Bytes.fromBe bytes)).mono le_rfl le_rfl (fun bytes n => ?_)
    (fun _ => Iff.rfl)
  constructor
  · rintro ⟨_, ⟨hlen, rfl⟩, rfl⟩
    exact ⟨hlen, rfl⟩
  · rintro ⟨hlen, rfl⟩
    exact ⟨bytes, ⟨hlen, rfl⟩, rfl⟩

theorem i32_shape :
    Shape 6 Cursor.i32 (fun bytes n => bytes.length = 4 ∧ n = Int32.ofNat (Bytes.fromBe bytes)) (fun _ => False) 0 := by
  refine ((take_shape 4).map fun bytes => Int32.ofNat (Bytes.fromBe bytes)).mono le_rfl le_rfl (fun bytes n => ?_)
    (fun _ => Iff.rfl)
  constructor
  · rintro ⟨_, ⟨hlen, rfl⟩, rfl⟩
    exact ⟨hlen, rfl⟩
  · rintro ⟨hlen, rfl⟩
    exact ⟨bytes, ⟨hlen, rfl⟩, rfl⟩

theorem cstr_shape :
    Shape 6 Cursor.cstr (fun bytes s => ∃ a, 0 ∉ a ∧ bytes = a ++ [0] ∧ s = Utf8.lossy a) (fun _ => False) 0 := by
  have hcopy := (Shape.upTo (.invalid "unterminated string") (by simp) 0).copying
    (fun x a h => by rw [h.1, List.length_append]; omega) 6
  refine (hcopy.map Utf8.lossy).mono le_rfl le_rfl (fun bytes s => ?_) (fun _ => Iff.rfl)
  constructor
  · rintro ⟨a, ⟨rfl, hnul⟩, rfl⟩
    exact ⟨a, hnul, rfl, rfl⟩
  · rintro ⟨a, hnul, rfl, rfl⟩
    exact ⟨a, ⟨rfl, hnul⟩, rfl⟩

/-- Sixteen bits are a number below `2^15`, or a size that no memory has. -/
theorem count_cases (bytes : List UInt8) (hlen : bytes.length = 2) :
    (Bytes.fromBe bytes < 2 ^ 15 ∧ asUsize (Int16.ofNat (Bytes.fromBe bytes)).toInt = Bytes.fromBe bytes) ∨
      (2 ^ 15 ≤ Bytes.fromBe bytes ∧ 2 ^ 63 ≤ asUsize (Int16.ofNat (Bytes.fromBe bytes)).toInt) := by
  have hlt := Bytes.fromBe_lt bytes
  rw [hlen] at hlt
  have htoInt : (Int16.ofNat (Bytes.fromBe bytes)).toInt = (Bytes.fromBe bytes : ℤ).bmod (2 ^ 16) := Int16.toInt_ofNat'
  rw [htoInt, asUsize]
  generalize Bytes.fromBe bytes = n at hlt
  by_cases hneg : n < 2 ^ 15
  · refine .inl ⟨hneg, ?_⟩
    have hb : (n : ℤ).bmod (2 ^ 16) = n := by
      rw [Int.bmod_def]
      omega
    rw [hb]
    omega
  · refine .inr ⟨by omega, ?_⟩
    have hb : (n : ℤ).bmod (2 ^ 16) = n - 2 ^ 16 := by
      rw [Int.bmod_def]
      omega
    rw [hb]
    omega

theorem negative_iff (x y : List UInt8) (hlen : x.length = 2) : Negative (x ++ y) ↔ 2 ^ 15 ≤ Bytes.fromBe x := by
  obtain ⟨high, low, rfl⟩ := List.length_eq_two.1 hlen
  have hbe : Bytes.fromBe [high, low] = (0 * 256 + high.toNat) * 256 + low.toNat := rfl
  have hlow : low.toNat < 256 := low.toNat_lt
  rw [hbe]
  constructor
  · rintro ⟨high', low', rest, heq, hhigh⟩
    cases heq
    omega
  · intro h
    exact ⟨high, low, y, rfl, by omega⟩

theorem counted_shape {α : Type} (size : ℕ) (hsize : 0 < size ∧ size ≤ 24) {item : Reader α}
    {Took : List UInt8 → α → Prop} (hitem : Shape 6 item Took (fun _ => False) 0) :
    Shape 6 (counted size item)
      (fun bytes items => ∃ y, items.length < 2 ^ 15 ∧ bytes = Bytes.toBe 2 items.length ++ y ∧ Shape.Items Took y items)
      Negative (2 ^ 15 * size) := by
  have hbody (x : List UInt8) (n : Int16) (hx : x.length = 2 ∧ n = Int16.ofNat (Bytes.fromBe x)) :
      Shape 6 (withCapacity (asUsize n.toInt) size >>= fun _ => ByteReader.times (asUsize n.toInt) item)
        (fun y items => asUsize n.toInt < 2 ^ 15 ∧ items.length = asUsize n.toInt ∧ Shape.Items Took y items)
        (fun _ => 2 ^ 15 ≤ asUsize n.toInt) (2 ^ 15 * size) := by
    rcases count_cases x hx.1 with ⟨hlt, hn⟩ | ⟨-, hn⟩
    · rw [← hx.2] at hn
      have hfit : asUsize n.toInt * size ≤ 2 ^ 15 * size := Nat.mul_le_mul_right size (by omega)
      have hshape := (Shape.withCapacity (w := 6) (asUsize n.toInt) size (by omega)).bind fun _ _ _ =>
        hitem.times (asUsize n.toInt)
      refine hshape.mono le_rfl hfit (fun y items => ?_) (fun y => ?_)
      · constructor
        · rintro ⟨_, y, _, rfl, rfl, hlen, hitems⟩
          exact ⟨by omega, hlen, hitems⟩
        · rintro ⟨-, hlen, hitems⟩
          exact ⟨[], y, (), rfl, rfl, hlen, hitems⟩
      · simp only [and_false, exists_false, or_false, false_iff]
        omega
    · rw [← hx.2] at hn
      have hover : 2 ^ 63 ≤ asUsize n.toInt * size := hn.trans (Nat.le_mul_of_pos_right _ hsize.1)
      have hnever (x : List UInt8) (_ : Unit) (h : False) : Shape 6 (ByteReader.times (asUsize n.toInt) item)
          (fun _ _ => False) (fun _ => False) 0 := h.elim
      have hshape := (Shape.overflow (w := 6) (asUsize n.toInt) size hover).bind hnever
      refine hshape.mono le_rfl (Nat.zero_le _) (fun y items => ?_) (fun y => ?_)
      · simp only [and_false, exists_false, false_iff, not_and]
        omega
      · simp only [true_or, true_iff]
        omega
  refine (i16_shape.bind hbody).mono le_rfl (by omega) (fun bytes items => ?_) (fun bytes => ?_)
  · constructor
    · rintro ⟨x, y, n, rfl, hx, hlt, hlen, hitems⟩
      refine ⟨y, by omega, ?_, hitems⟩
      rcases count_cases x hx.1 with ⟨-, hn⟩ | ⟨-, hn⟩
      · have hback := Bytes.toBe_fromBe x
        rw [hx.1] at hback
        rw [hlen, hx.2, hn, hback]
      · rw [← hx.2] at hn
        omega
    · rintro ⟨y, hlt, rfl, hitems⟩
      have hbe : Bytes.fromBe (Bytes.toBe 2 items.length) = items.length := by
        rw [Bytes.fromBe_toBe]
        exact Nat.mod_eq_of_lt (by omega)
      rcases count_cases (Bytes.toBe 2 items.length) (Bytes.length_toBe 2 _) with ⟨-, hn⟩ | ⟨hn, -⟩
      · refine ⟨Bytes.toBe 2 items.length, y, _, rfl, ⟨Bytes.length_toBe 2 _, rfl⟩, ?_, ?_, hitems⟩
        · rw [hn, hbe]
          exact hlt
        · rw [hn, hbe]
      · omega
  · rw [false_or]
    constructor
    · rintro ⟨x, y, n, rfl, hx, hn⟩
      rw [negative_iff x y hx.1]
      rcases count_cases x hx.1 with ⟨hlt, heq⟩ | ⟨hle, -⟩
      · rw [← hx.2] at heq
        omega
      · exact hle
    · rintro ⟨high, low, rest, rfl, hhigh⟩
      have hneg := (negative_iff [high, low] rest rfl).1 ⟨high, low, rest, rfl, hhigh⟩
      refine ⟨[high, low], rest, _, rfl, ⟨rfl, rfl⟩, ?_⟩
      rcases count_cases [high, low] rfl with ⟨hlt, -⟩ | ⟨-, hle⟩ <;> omega

/-- The items of a count are known by their bytes. -/
theorem past_iff {α : Type} {Took : List UInt8 → α → Prop} {item : List UInt8 → Prop}
    (hitem : ∀ x, (∃ a, Took x a) ↔ item x) (P : List UInt8 → Prop) (bytes : List UInt8) :
    (∃ x y items, bytes = x ++ y ∧
      (∃ z, items.length < 2 ^ 15 ∧ x = Bytes.toBe 2 items.length ++ z ∧ Shape.Items Took z items) ∧ P y) ↔
      ∃ y, PastCount item bytes y ∧ P y := by
  constructor
  · rintro ⟨_, y, items, rfl, ⟨z, hlt, rfl, hitems⟩, hy⟩
    obtain ⟨parts, hlen, rfl, hparts⟩ := hitems.parts
    exact ⟨y, ⟨parts, by omega, by rw [hlen, List.append_assoc], fun x hx => (hitem x).1 (hparts x hx)⟩, hy⟩
  · rintro ⟨y, ⟨parts, hlt, rfl, hparts⟩, hy⟩
    obtain ⟨items, hlen, hitems⟩ := Shape.Items.of_parts fun x hx => (hitem x).2 (hparts x hx)
    exact ⟨Bytes.toBe 2 parts.length ++ parts.flatten, y, items, by rw [List.append_assoc],
      ⟨parts.flatten, by omega, by rw [hlen], hitems⟩, hy⟩

/-- What the bytes of a parameter are read as. -/
def TookParam (bytes : List UInt8) (p : Option (List UInt8)) : Prop :=
  ∃ n value, bytes = Bytes.toBe 4 n ++ value ∧ n < 2 ^ 32 ∧
    (value.length = if n < 2 ^ 31 then n else 0) ∧ p = if n < 2 ^ 31 then some value else none

theorem tookParam_iff (bytes : List UInt8) : (∃ p, TookParam bytes p) ↔ IsParam bytes := by
  constructor
  · rintro ⟨p, n, value, h, hn, hlen, -⟩
    exact ⟨n, value, h, hn, hlen⟩
  · rintro ⟨n, value, h, hn, hlen⟩
    exact ⟨_, n, value, h, hn, hlen, rfl⟩

theorem int32_cases (n : ℕ) (hlt : n < 2 ^ 32) :
    (n < 2 ^ 31 ∧ ¬(Int32.ofNat n).toInt < 0 ∧ asUsize (Int32.ofNat n).toInt = n) ∨
      (¬n < 2 ^ 31 ∧ (Int32.ofNat n).toInt < 0) := by
  have htoInt : (Int32.ofNat n).toInt = (n : ℤ).bmod (2 ^ 32) := Int32.toInt_ofNat'
  rw [htoInt, asUsize]
  by_cases hneg : n < 2 ^ 31
  · have hb : (n : ℤ).bmod (2 ^ 32) = n := by
      rw [Int.bmod_def]
      omega
    rw [hb]
    exact .inl ⟨hneg, by omega, by omega⟩
  · have hb : (n : ℤ).bmod (2 ^ 32) = n - 2 ^ 32 := by
      rw [Int.bmod_def]
      omega
    rw [hb]
    exact .inr ⟨hneg, by omega⟩

theorem boundParam_shape : Shape 6 boundParam TookParam (fun _ => False) 0 := by
  have hvalue (x : List UInt8) (plen : Int32) (hx : x.length = 4 ∧ plen = Int32.ofNat (Bytes.fromBe x)) :
      Shape 6 (if plen.toInt < 0 then pure none else some <$> Cursor.take (asUsize plen.toInt))
        (fun value p => (value.length = if plen.toInt < 0 then 0 else asUsize plen.toInt) ∧
          p = if plen.toInt < 0 then none else some value) (fun _ => False) 0 := by
    by_cases hneg : plen.toInt < 0
    · rw [if_pos hneg]
      refine (Shape.pure none).mono le_rfl le_rfl (fun value p => ?_) (fun _ => Iff.rfl)
      rw [if_pos hneg, if_pos hneg, List.length_eq_zero_iff]
    · rw [if_neg hneg]
      refine ((take_shape (asUsize plen.toInt)).map some).mono le_rfl le_rfl (fun value p => ?_) (fun _ => Iff.rfl)
      rw [if_neg hneg, if_neg hneg]
      constructor
      · rintro ⟨_, ⟨hlen, rfl⟩, rfl⟩
        exact ⟨hlen, rfl⟩
      · rintro ⟨hlen, rfl⟩
        exact ⟨value, ⟨hlen, rfl⟩, rfl⟩
  refine (i32_shape.bind hvalue).mono le_rfl le_rfl (fun bytes p => ?_) (by simp)
  constructor
  · rintro ⟨x, value, plen, rfl, ⟨hx, rfl⟩, hlen, rfl⟩
    have hlt := Bytes.fromBe_lt x
    have hback := Bytes.toBe_fromBe x
    rw [hx] at hlt hback
    refine ⟨Bytes.fromBe x, value, by rw [hback], hlt, ?_⟩
    rcases int32_cases _ hlt with ⟨hn, hpos, heq⟩ | ⟨hn, hneg⟩
    · rw [if_neg hpos, heq] at hlen
      rw [if_neg hpos, if_pos hn, if_pos hn]
      exact ⟨hlen, rfl⟩
    · rw [if_pos hneg] at hlen
      rw [if_pos hneg, if_neg hn, if_neg hn]
      exact ⟨hlen, rfl⟩
  · rintro ⟨n, value, rfl, hlt, hlen, rfl⟩
    have hbe : Bytes.fromBe (Bytes.toBe 4 n) = n := by
      rw [Bytes.fromBe_toBe]
      exact Nat.mod_eq_of_lt hlt
    refine ⟨Bytes.toBe 4 n, value, _, rfl, ⟨Bytes.length_toBe 4 n, rfl⟩, ?_⟩
    rw [hbe]
    rcases int32_cases n hlt with ⟨hn, hpos, heq⟩ | ⟨hn, hneg⟩
    · rw [if_pos hn] at hlen
      rw [if_neg hpos, if_neg hpos, if_pos hn, heq]
      exact ⟨hlen, rfl⟩
    · rw [if_neg hn] at hlen
      rw [if_pos hneg, if_pos hneg, if_neg hn]
      exact ⟨hlen, rfl⟩

/-! ## Messages -/

/-- What the bytes of a string are read as. -/
def TookStr (bytes : List UInt8) (s : List Char) : Prop := ∃ a, 0 ∉ a ∧ bytes = a ++ [0] ∧ s = Utf8.lossy a

theorem took_putCstr {s : List Char} (h : '\x00' ∉ s) : TookStr (putCstr s) s :=
  ⟨_, Utf8.zero_not_mem h, rfl, (Utf8.lossy_encoded s).symm⟩

theorem took_putI16 (n : Int16) : (putI16 n).length = 2 ∧ n = Int16.ofNat (Bytes.fromBe (putI16 n)) := by
  refine ⟨Bytes.length_toBe 2 _, ?_⟩
  have hlt : n.toBitVec.toNat < 256 ^ 2 := n.toBitVec.isLt
  rw [putI16, Bytes.fromBe_toBe, Nat.mod_eq_of_lt hlt]
  exact Int16.toBitVec_inj.1 (by simp)

theorem took_putI32 (n : Int32) : (putI32 n).length = 4 ∧ n = Int32.ofNat (Bytes.fromBe (putI32 n)) := by
  refine ⟨Bytes.length_toBe 4 _, ?_⟩
  have hlt : n.toBitVec.toNat < 256 ^ 4 := n.toBitVec.isLt
  rw [putI32, Bytes.fromBe_toBe, Nat.mod_eq_of_lt hlt]
  exact Int32.toBitVec_inj.1 (by simp)

theorem took_putParam {p : Option (List UInt8)} (h : (putParam p).length < 2 ^ 30) : TookParam (putParam p) p := by
  cases p with
  | none => exact ⟨2 ^ 32 - 1, [], by rw [List.append_nil]; rfl, by omega, rfl, rfl⟩
  | some bytes =>
    have hlen : bytes.length < 2 ^ 30 := by
      rw [putParam, List.length_append] at h
      omega
    have hif : bytes.length < 2 ^ 31 := by omega
    exact ⟨bytes.length, bytes, rfl, by omega, by rw [if_pos hif], by rw [if_pos hif]⟩

theorem took_putCounted {α : Type} {put : α → List UInt8} {Took : List UInt8 → α → Prop} {items : List α}
    (hlt : items.length < 2 ^ 15) (hput : ∀ a ∈ items, Took (put a) a) :
    ∃ y, items.length < 2 ^ 15 ∧ putCounted put items = Bytes.toBe 2 items.length ++ y ∧ Shape.Items Took y items :=
  ⟨items.flatMap put, hlt, rfl, Shape.Items.flatMap hput⟩

/-- A reader of bodies: where it panics, its memory, and that it reads the messages of its kind. -/
def Decodes (kind : Char) (r : Reader Frontend) (Panics : List UInt8 → Prop) : Prop :=
  ∃ Took, Shape 6 r Took Panics (2 ^ 15 * 28) ∧
    ∀ m : Frontend, m.Fields → m.tag = kind → m.body.length < 2 ^ 30 → Took m.body m

/-- A panic behind two strings. -/
theorem behind_strings (P : List UInt8 → Prop) (bytes : List UInt8) :
    (False ∨ ∃ x y s, bytes = x ++ y ∧ TookStr x s ∧ (False ∨ ∃ x' y' s', y = x' ++ y' ∧ TookStr x' s' ∧ P y')) ↔
      ∃ a b more, 0 ∉ a ∧ 0 ∉ b ∧ bytes = a ++ 0 :: (b ++ 0 :: more) ∧ P more := by
  simp only [false_or]
  constructor
  · rintro ⟨_, _, s, rfl, ⟨a, ha, rfl, -⟩, _, more, s', rfl, ⟨b, hb, rfl, -⟩, hmore⟩
    exact ⟨a, b, more, ha, hb, by simp, hmore⟩
  · rintro ⟨a, b, more, ha, hb, rfl, hmore⟩
    exact ⟨a ++ [0], b ++ 0 :: more, _, by simp, ⟨a, ha, rfl, rfl⟩, b ++ [0], more, _, by simp, ⟨b, hb, rfl, rfl⟩, hmore⟩

theorem query_decodes : Decodes 'Q' (Frontend.query <$> Cursor.cstr) fun _ => False := by
  refine ⟨_, (cstr_shape.map Frontend.query).mono le_rfl (Nat.zero_le _) (fun _ _ => Iff.rfl) (fun _ => Iff.rfl), ?_⟩
  intro m hfields htag _
  cases m with
  | query sql => exact ⟨sql, took_putCstr hfields, rfl⟩
  | unsupported => exact hfields.elim
  | _ => simp [Frontend.tag] at htag

theorem parse_decodes :
    Decodes 'P' (do
      let name ← Cursor.cstr
      let sql ← Cursor.cstr
      let paramOids ← counted 4 Cursor.i32
      return .parse (String.ofList name) sql paramOids)
    fun bytes => ∃ a b more, 0 ∉ a ∧ 0 ∉ b ∧ bytes = a ++ 0 :: (b ++ 0 :: more) ∧ Negative more := by
  have hshape := cstr_shape.bind fun _ name _ => cstr_shape.bind fun _ sql _ =>
    (counted_shape 4 (by omega) i32_shape).bind fun _ paramOids _ =>
      Shape.pure (Frontend.parse (String.ofList name) sql paramOids)
  refine ⟨_, hshape.mono le_rfl (by omega) (fun _ _ => Iff.rfl) (fun bytes => ?_), ?_⟩
  · simp only [and_false, exists_false, or_false]
    exact behind_strings Negative bytes
  · intro m hfields htag _
    cases m with
    | parse name sql paramOids =>
      obtain ⟨hname, hsql, hoids⟩ := hfields
      refine ⟨_, _, _, rfl, took_putCstr hname, _, _, _, rfl, took_putCstr hsql, _, [], _, (List.append_nil _).symm,
        took_putCounted hoids fun n _ => took_putI32 n, rfl, ?_⟩
      rw [String.ofList_toList]
    | unsupported => exact hfields.elim
    | _ => simp [Frontend.tag] at htag

theorem length_putParam_le {p : Option (List UInt8)} {params : List (Option (List UInt8))} (h : p ∈ params) :
    (putParam p).length ≤ (putCounted putParam params).length := by
  have hsub := (List.sublist_flatten_of_mem (List.mem_map_of_mem (f := putParam) h)).length_le
  rw [← List.flatMap_def] at hsub
  rw [putCounted, List.length_append]
  omega

theorem bind_decodes :
    Decodes 'B' (do
      let portal ← Cursor.cstr
      let stmt ← Cursor.cstr
      let paramFormats ← counted 2 Cursor.i16
      let params ← counted 24 boundParam
      let resultFormats ← counted 2 Cursor.i16
      return .bind (String.ofList portal) (String.ofList stmt) paramFormats params resultFormats)
    fun bytes => ∃ a b more, 0 ∉ a ∧ 0 ∉ b ∧ bytes = a ++ 0 :: (b ++ 0 :: more) ∧ NegativeBind more := by
  have hshape := cstr_shape.bind fun _ portal _ => cstr_shape.bind fun _ stmt _ =>
    (counted_shape 2 (by omega) i16_shape).bind fun _ paramFormats _ =>
      (counted_shape 24 (by omega) boundParam_shape).bind fun _ params _ =>
        (counted_shape 2 (by omega) i16_shape).bind fun _ resultFormats _ =>
          Shape.pure (Frontend.bind (String.ofList portal) (String.ofList stmt) paramFormats params resultFormats)
  refine ⟨_, hshape.mono le_rfl (by omega) (fun _ _ => Iff.rfl) (fun bytes => ?_), ?_⟩
  · simp only [and_false, exists_false, or_false]
    have hformat (x : List UInt8) : (∃ n : Int16, x.length = 2 ∧ n = Int16.ofNat (Bytes.fromBe x)) ↔ x.length = 2 :=
      ⟨fun ⟨_, h, _⟩ => h, fun h => ⟨_, h, rfl⟩⟩
    rw [← behind_strings NegativeBind bytes]
    simp only [NegativeBind, ← past_iff hformat, ← past_iff tookParam_iff]
    rfl
  · intro m hfields htag hlen
    cases m with
    | bind portal stmt paramFormats params resultFormats =>
      obtain ⟨hportal, hstmt, hparamFormats, hparams, hresultFormats⟩ := hfields
      have hparam (p : Option (List UInt8)) (hp : p ∈ params) : TookParam (putParam p) p := by
        refine took_putParam ((length_putParam_le hp).trans_lt ?_)
        simp only [Frontend.body, List.length_append] at hlen
        omega
      refine ⟨_, _, _, rfl, took_putCstr hportal, _, _, _, rfl, took_putCstr hstmt, _, _, _, rfl,
        took_putCounted hparamFormats fun n _ => took_putI16 n, _, _, _, rfl, took_putCounted hparams hparam, _, [], _,
        (List.append_nil _).symm, took_putCounted hresultFormats fun n _ => took_putI16 n, rfl, ?_⟩
      rw [String.ofList_toList, String.ofList_toList]
    | unsupported => exact hfields.elim
    | _ => simp [Frontend.tag] at htag

theorem took_kind {kind : Char} (h : kind.toNat < 256) : kind = byteKind (UInt8.ofNat kind.toNat) := by
  rw [byteKind, UInt8.toNat_ofNat', Nat.mod_eq_of_lt h, Char.ofNat_toNat]

theorem describe_decodes :
    Decodes 'D' (do
      let kind ← Cursor.u8
      let name ← Cursor.cstr
      return .describe (byteKind kind) (String.ofList name)) fun _ => False := by
  have hshape := u8_shape.bind fun _ kind _ => cstr_shape.bind fun _ name _ =>
    Shape.pure (Frontend.describe (byteKind kind) (String.ofList name))
  refine ⟨_, hshape.mono le_rfl (Nat.zero_le _) (fun _ _ => Iff.rfl) (by simp), ?_⟩
  intro m hfields htag _
  cases m with
  | describe kind name =>
    refine ⟨[UInt8.ofNat kind.toNat], _, _, rfl, rfl, _, [], _, (List.append_nil _).symm, took_putCstr hfields.2, rfl, ?_⟩
    rw [← took_kind hfields.1, String.ofList_toList]
  | unsupported => exact hfields.elim
  | _ => simp [Frontend.tag] at htag

theorem close_decodes :
    Decodes 'C' (do
      let kind ← Cursor.u8
      let name ← Cursor.cstr
      return .close (byteKind kind) (String.ofList name)) fun _ => False := by
  have hshape := u8_shape.bind fun _ kind _ => cstr_shape.bind fun _ name _ =>
    Shape.pure (Frontend.close (byteKind kind) (String.ofList name))
  refine ⟨_, hshape.mono le_rfl (Nat.zero_le _) (fun _ _ => Iff.rfl) (by simp), ?_⟩
  intro m hfields htag _
  cases m with
  | close kind name =>
    refine ⟨[UInt8.ofNat kind.toNat], _, _, rfl, rfl, _, [], _, (List.append_nil _).symm, took_putCstr hfields.2, rfl, ?_⟩
    rw [← took_kind hfields.1, String.ofList_toList]
  | unsupported => exact hfields.elim
  | _ => simp [Frontend.tag] at htag

theorem execute_decodes :
    Decodes 'E' (do
      let portal ← Cursor.cstr
      let maxRows ← Cursor.i32
      return .execute (String.ofList portal) maxRows) fun _ => False := by
  have hshape := cstr_shape.bind fun _ portal _ => i32_shape.bind fun _ maxRows _ =>
    Shape.pure (Frontend.execute (String.ofList portal) maxRows)
  refine ⟨_, hshape.mono le_rfl (Nat.zero_le _) (fun _ _ => Iff.rfl) (by simp), ?_⟩
  intro m hfields htag _
  cases m with
  | execute portal maxRows =>
    refine ⟨_, _, _, rfl, took_putCstr hfields, _, [], _, (List.append_nil _).symm, took_putI32 maxRows, rfl, ?_⟩
    rw [String.ofList_toList]
  | unsupported => exact hfields.elim
  | _ => simp [Frontend.tag] at htag

/-- A message without a body. -/
theorem bare_decodes (kind : Char) (m : Frontend) (h : ∀ m' : Frontend, m'.Fields → m'.tag = kind → m'.body = [] ∧ m' = m) :
    Decodes kind (pure m) fun _ => False :=
  ⟨_, (Shape.pure m).mono le_rfl (Nat.zero_le _) (fun _ _ => Iff.rfl) (fun _ => Iff.rfl), fun m' hfields htag _ => h m' hfields htag⟩

theorem sync_decodes : Decodes 'S' (pure .sync) fun _ => False :=
  bare_decodes 'S' .sync fun m hfields htag => by
    cases m with
    | sync => exact ⟨rfl, rfl⟩
    | unsupported => exact hfields.elim
    | _ => simp [Frontend.tag] at htag

theorem flush_decodes : Decodes 'H' (pure .flush) fun _ => False :=
  bare_decodes 'H' .flush fun m hfields htag => by
    cases m with
    | flush => exact ⟨rfl, rfl⟩
    | unsupported => exact hfields.elim
    | _ => simp [Frontend.tag] at htag

theorem terminate_decodes : Decodes 'X' (pure .terminate) fun _ => False :=
  bare_decodes 'X' .terminate fun m hfields htag => by
    cases m with
    | terminate => exact ⟨rfl, rfl⟩
    | unsupported => exact hfields.elim
    | _ => simp [Frontend.tag] at htag

/-- Panics of another kind than the two with counts. -/
theorem not_negativeBody {tag : UInt8} (hp : byteKind tag ≠ 'P') (hb : byteKind tag ≠ 'B') (body : List UInt8) :
    False ↔ NegativeBody tag body := by
  rw [false_iff]
  rintro ⟨a, b, more, -, -, -, ⟨h, -⟩ | ⟨h, -⟩⟩
  · exact hp h
  · exact hb h

theorem Decodes.congr {kind : Char} {r : Reader Frontend} {Panics Panics' : List UInt8 → Prop} (h : Decodes kind r Panics)
    (hp : ∀ bytes, Panics bytes ↔ Panics' bytes) : Decodes kind r Panics' := by
  obtain ⟨Took, hshape, hreads⟩ := h
  exact ⟨Took, hshape.mono le_rfl le_rfl (fun _ _ => Iff.rfl) hp, hreads⟩

theorem decodeBody_decodes (tag : UInt8) : Decodes (byteKind tag) (decodeBody tag) (NegativeBody tag) := by
  have hother (hp : byteKind tag ≠ 'P') (hb : byteKind tag ≠ 'B') := not_negativeBody hp hb
  unfold decodeBody
  split
  · next h => rw [h]; exact query_decodes.congr (hother (by rw [h]; decide) (by rw [h]; decide))
  · next h =>
    rw [h]
    refine parse_decodes.congr fun bytes => ?_
    simp [NegativeBody, h]
  · next h =>
    rw [h]
    refine bind_decodes.congr fun bytes => ?_
    simp [NegativeBody, h]
  · next h => rw [h]; exact describe_decodes.congr (hother (by rw [h]; decide) (by rw [h]; decide))
  · next h => rw [h]; exact execute_decodes.congr (hother (by rw [h]; decide) (by rw [h]; decide))
  · next h => rw [h]; exact sync_decodes.congr (hother (by rw [h]; decide) (by rw [h]; decide))
  · next h => rw [h]; exact flush_decodes.congr (hother (by rw [h]; decide) (by rw [h]; decide))
  · next h => rw [h]; exact close_decodes.congr (hother (by rw [h]; decide) (by rw [h]; decide))
  · next h => rw [h]; exact terminate_decodes.congr (hother (by rw [h]; decide) (by rw [h]; decide))
  · next hq hp hb hd he hs hh hc hx =>
    refine (bare_decodes _ _ fun m hfields htag => ?_).congr (hother hp hb)
    cases m with
    | query => exact absurd htag.symm hq
    | parse => exact absurd htag.symm hp
    | bind => exact absurd htag.symm hb
    | describe => exact absurd htag.symm hd
    | execute => exact absurd htag.symm he
    | close => exact absurd htag.symm hc
    | sync => exact absurd htag.symm hs
    | flush => exact absurd htag.symm hh
    | terminate => exact absurd htag.symm hx
    | unsupported => exact hfields.elim

/-! ## The stream -/

theorem length_cases (n : ℕ) (hlt : n < 2 ^ 32) :
    ((n < 4 ∨ 2 ^ 30 < n) ∧ ((Int32.ofNat n).toInt < 4 ∨ 2 ^ 30 < (Int32.ofNat n).toInt)) ∨
      (¬(n < 4 ∨ 2 ^ 30 < n) ∧ ¬((Int32.ofNat n).toInt < 4 ∨ 2 ^ 30 < (Int32.ofNat n).toInt) ∧
        asUsize ((Int32.ofNat n).toInt - 4) = n - 4) := by
  have htoInt : (Int32.ofNat n).toInt = (n : ℤ).bmod (2 ^ 32) := Int32.toInt_ofNat'
  rw [htoInt, asUsize, Int.bmod_def]
  omega

/-- The first message past its tag: its length, its body of that length, and what is in it. -/
theorem readMessage_cons (tag : UInt8) (bytes : List UInt8) (asked : ℕ) :
    run readMessage (tag :: bytes) asked =
      if bytes.length < 4 then (.error .eof, asked)
      else if Bytes.fromBe (bytes.take 4) < 4 ∨ 2 ^ 30 < Bytes.fromBe (bytes.take 4) then
        (.error (.invalid "implausible message length"), asked)
      else if (bytes.drop 4).length < Bytes.fromBe (bytes.take 4) - 4 then
        (.error .eof, asked + (Bytes.fromBe (bytes.take 4) - 4))
      else
        match run (decodeBody tag) ((bytes.drop 4).take (Bytes.fromBe (bytes.take 4) - 4))
          (asked + (Bytes.fromBe (bytes.take 4) - 4)) with
        | (.ok (m, _), asked') => (.ok (some m, (bytes.drop 4).drop (Bytes.fromBe (bytes.take 4) - 4)), asked')
        | (.error e, asked') => (.error e, asked') := by
  have hone : 1 ≤ (tag :: bytes).length := by simp
  unfold readMessage
  rw [run_bind, run_atEnd]
  simp only [List.isEmpty_cons, Bool.false_eq_true, if_false]
  rw [run_bind, run_take, if_pos hone]
  simp only [List.take_succ_cons, List.take_zero, List.drop_succ_cons, List.drop_zero]
  rw [run_bind, readI32, run_map, run_take]
  by_cases hshort : bytes.length < 4
  · rw [if_neg (by omega), if_pos hshort]
  · rw [if_pos (by omega), if_neg hshort]
    dsimp only
    have hlt := Bytes.fromBe_lt (bytes.take 4)
    rw [List.length_take_of_le (by omega)] at hlt
    rcases length_cases (Bytes.fromBe (bytes.take 4)) hlt with ⟨hbad, hbad'⟩ | ⟨hgood, hgood', hsize⟩
    · rw [if_pos hbad, if_pos hbad']
      rfl
    · rw [if_neg hgood, if_neg hgood', run_bind, run_ask]
      dsimp only
      rw [run_bind, run_take, hsize]
      by_cases hbody : (bytes.drop 4).length < Bytes.fromBe (bytes.take 4) - 4
      · rw [if_neg (by omega), if_pos hbody]
      · rw [if_pos (by omega), if_neg hbody]
        dsimp only
        rw [run_map, run_within, List.headD_cons]
        rcases run (decodeBody tag) _ _ with ⟨e | ⟨m, rest⟩, asked'⟩ <;> rfl

theorem framed_run (tag : UInt8) (body unread : List UInt8) (hlen : body.length + 4 ≤ 2 ^ 30) (asked : ℕ) :
    run readMessage (tag :: (Bytes.toBe 4 (body.length + 4) ++ (body ++ unread))) asked =
      match run (decodeBody tag) body (asked + body.length) with
      | (.ok (m, _), asked') => (.ok (some m, unread), asked')
      | (.error e, asked') => (.error e, asked') := by
  have hfour : (Bytes.toBe 4 (body.length + 4)).length = 4 := Bytes.length_toBe 4 _
  have htake : (Bytes.toBe 4 (body.length + 4) ++ (body ++ unread)).take 4 = Bytes.toBe 4 (body.length + 4) := by
    rw [List.take_append_of_le_length (by omega), List.take_of_length_le (by omega)]
  have hdrop : (Bytes.toBe 4 (body.length + 4) ++ (body ++ unread)).drop 4 = body ++ unread := by
    rw [List.drop_append_of_le_length (by omega), List.drop_of_length_le (by omega), List.nil_append]
  have hbe : Bytes.fromBe (Bytes.toBe 4 (body.length + 4)) = body.length + 4 := by
    rw [Bytes.fromBe_toBe]
    exact Nat.mod_eq_of_lt (by omega)
  rw [readMessage_cons, htake, hdrop, hbe, if_neg, if_neg, if_neg, Nat.add_sub_cancel, List.take_left, List.drop_left]
  · rw [List.length_append]
    omega
  · omega
  · rw [List.length_append, hfour]
    omega

/-- Reading a whole message panics, and asks for memory, as reading its body does. -/
theorem framed_fault (tag : UInt8) (body unread : List UInt8) (hlen : body.length + 4 ≤ 2 ^ 30) :
    ((run readMessage (tag :: (Bytes.toBe 4 (body.length + 4) ++ (body ++ unread))) 0).1 = .error .panic ↔
      (run (decodeBody tag) body (0 + body.length)).1 = .error .panic) ∧
    (run readMessage (tag :: (Bytes.toBe 4 (body.length + 4) ++ (body ++ unread))) 0).2 =
      (run (decodeBody tag) body (0 + body.length)).2 := by
  rw [framed_run tag body unread hlen]
  rcases run (decodeBody tag) body (0 + body.length) with ⟨e | ⟨m, rest⟩, asked'⟩ <;> simp

/-- A stream starts with a whole message of a plausible length, or reading it neither
panics nor asks for more than was declared. -/
theorem framed_or (stream : List UInt8) :
    (∃ tag body unread, stream = tag :: (Bytes.toBe 4 (body.length + 4) ++ (body ++ unread)) ∧
      body.length + 4 ≤ 2 ^ 30) ∨
      (run readMessage stream 0).1 ≠ .error .panic ∧ (run readMessage stream 0).2 ≤ min (declared stream) (2 ^ 30) := by
  cases stream with
  | nil =>
    have hend : run readMessage [] 0 = (.ok (none, []), 0) := rfl
    rw [hend]
    exact .inr ⟨by simp, Nat.zero_le _⟩
  | cons tag bytes =>
    rw [readMessage_cons]
    have hdeclared : declared (tag :: bytes) = Bytes.fromBe (bytes.take 4) := rfl
    by_cases hshort : bytes.length < 4
    · rw [if_pos hshort]
      exact .inr ⟨by simp, Nat.zero_le _⟩
    rw [if_neg hshort]
    by_cases hbad : Bytes.fromBe (bytes.take 4) < 4 ∨ 2 ^ 30 < Bytes.fromBe (bytes.take 4)
    · rw [if_pos hbad]
      exact .inr ⟨by simp, Nat.zero_le _⟩
    rw [if_neg hbad]
    by_cases hbody : (bytes.drop 4).length < Bytes.fromBe (bytes.take 4) - 4
    · rw [if_pos hbody, hdeclared]
      exact .inr ⟨by simp, by dsimp only; omega⟩
    · have hfour : (bytes.take 4).length = 4 := List.length_take_of_le (by omega)
      have hback := Bytes.toBe_fromBe (bytes.take 4)
      rw [hfour] at hback
      have hlen : ((bytes.drop 4).take (Bytes.fromBe (bytes.take 4) - 4)).length + 4 = Bytes.fromBe (bytes.take 4) := by
        rw [List.length_take_of_le (by omega)]
        omega
      refine .inl ⟨tag, (bytes.drop 4).take (Bytes.fromBe (bytes.take 4) - 4),
        (bytes.drop 4).drop (Bytes.fromBe (bytes.take 4) - 4), ?_, by omega⟩
      rw [hlen, hback, List.take_append_drop, List.take_append_drop]

theorem declared_framed (tag : UInt8) (body unread : List UInt8) (hlen : body.length + 4 ≤ 2 ^ 30) :
    declared (tag :: (Bytes.toBe 4 (body.length + 4) ++ (body ++ unread))) = body.length + 4 := by
  have hfour : (Bytes.toBe 4 (body.length + 4)).length = 4 := Bytes.length_toBe 4 _
  rw [declared, List.drop_succ_cons, List.drop_zero, List.take_append_of_le_length (by omega),
    List.take_of_length_le (by omega), Bytes.fromBe_toBe]
  exact Nat.mod_eq_of_lt (by omega)

theorem negativeCount_framed (tag : UInt8) (body unread : List UInt8) (hlen : body.length + 4 ≤ 2 ^ 30) :
    NegativeCount (tag :: (Bytes.toBe 4 (body.length + 4) ++ (body ++ unread))) ↔ NegativeBody tag body := by
  constructor
  · rintro ⟨tag', body', unread', heq, hlen', hneg⟩
    have hsame := declared_framed tag body unread hlen
    rw [heq, declared_framed tag' body' unread' hlen'] at hsame
    rw [hsame, List.cons.injEq] at heq
    obtain ⟨rfl, heq⟩ := heq
    obtain ⟨rfl, -⟩ := List.append_inj (List.append_cancel_left heq) (by omega)
    exact hneg
  · intro hneg
    exact ⟨tag, body, unread, rfl, hlen, hneg⟩

theorem tag_lt {m : Frontend} (h : m.Fields) : m.tag.toNat < 256 := by
  cases m with
  | unsupported => exact h.elim
  | _ => simp [Frontend.tag]

/-- **A stream is read without a panic, within a fixed multiple of its declared length
and as the message it encodes, if and only if its first message has no negative count.** -/
theorem read_message (stream : List UInt8) :
    ((run readMessage stream 0).1 ≠ .error .panic ∧
        (run readMessage stream 0).2 ≤ 2 ^ 18 * min (declared stream) (2 ^ 30) ∧
        ∀ m rest, m.WellFormed → stream = m.encode ++ rest → (run readMessage stream 0).1 = .ok (some m, rest)) ↔
      ¬NegativeCount stream := by
  have hwritten (m : Frontend) (rest : List UInt8) (hm : m.WellFormed) (hs : stream = m.encode ++ rest) :
      (run readMessage stream 0).1 = .ok (some m, rest) := by
    have hbody : m.body.length + 4 ≤ 2 ^ 30 := by
      have hlt := hm.2
      rw [Frontend.encode, List.length_cons, List.length_append, Bytes.length_toBe] at hlt
      omega
    obtain ⟨Took, hshape, hreads⟩ := decodeBody_decodes (UInt8.ofNat m.tag.toNat)
    obtain ⟨asked', hrun⟩ := hshape.reads (hreads m hm.1 (took_kind (tag_lt hm.1)) (by omega)) [] (0 + m.body.length)
    rw [List.append_nil] at hrun
    rw [hs, Frontend.encode, List.cons_append, List.append_assoc, framed_run _ _ _ hbody, hrun]
  constructor
  · rintro ⟨hpanic, -, -⟩ ⟨tag, body, unread, rfl, hlen, hneg⟩
    obtain ⟨Took, hshape, -⟩ := decodeBody_decodes tag
    exact hpanic ((framed_fault tag body unread hlen).1.2 ((hshape.panics body _).2 hneg))
  · intro hneg
    rcases framed_or stream with ⟨tag, body, unread, rfl, hlen⟩ | ⟨hpanic, hcost⟩
    · rw [negativeCount_framed _ _ _ hlen] at hneg
      obtain ⟨Took, hshape, -⟩ := decodeBody_decodes tag
      obtain ⟨hpanics, hasked⟩ := framed_fault tag body unread hlen
      have hcost := hshape.cost body (0 + body.length)
      refine ⟨fun h => hneg ((hshape.panics body _).1 (hpanics.1 h)), ?_, hwritten⟩
      rw [hasked, declared_framed _ _ _ hlen, min_eq_left hlen]
      omega
    · exact ⟨hpanic, by omega, hwritten⟩

/-- A `Parse` without a name, a text or parameters, whose count is `-1`. -/
def parseOfMinusOne : List UInt8 := [80, 0, 0, 0, 8, 0, 0, 255, 255]

theorem read_message_panics : (run readMessage parseOfMinusOne 0).1 = .error .panic := by
  have hpanics : ((run readMessage parseOfMinusOne 0).1 matches .error .panic) = true := by decide +kernel
  split at hpanics
  · next heq => exact heq
  · cases hpanics

end Twill.Server
