/-
What the CRC32 of an object and of a frame finds out.

The table of `crc32` is eight moves of a reflected register (`Crc.shift`), so the checksum of
some bytes is the register after their bits, each byte's least significant bit first. The stored
checksum comes in the same order; the bytes are accepted exactly when the register after all of
them, the checksum included, is what a checksum always leaves (`crc32_eq_iff`). A burst anywhere,
over the border of body and checksum too, leaves another register.
-/
import Twill.Lib.Crc
import Twill.Storage.ObjectCodec
import Twill.Storage.LocalRecovery

namespace Twill.Storage

open Crc (shift feed vec Burst)
open ByteReader (toLe fromLe)

/-! ## The register -/

def CRC_POLY : BitVec 32 := 0xEDB88320#32

/-- The bits of a byte as the register takes them. -/
def byteBits (b : UInt8) : List Bool := List.ofFn fun i : Fin 8 => b.toBitVec.getLsbD i

def bits (bytes : Bytes) : List Bool := bytes.flatMap byteBits

theorem poly_top : CRC_POLY.getLsbD (32 - 1) = true := by decide

theorem bits_append (xs ys : Bytes) : bits (xs ++ ys) = bits xs ++ bits ys := List.flatMap_append

@[simp] theorem length_byteBits (b : UInt8) : (byteBits b).length = 8 := List.length_ofFn

theorem length_bits (bytes : Bytes) : (bits bytes).length = 8 * bytes.length := by
  induction bytes with
  | nil => rfl
  | cons b bytes ih =>
    have hcons : bits (b :: bytes) = byteBits b ++ bits bytes := rfl
    rw [hcons, List.length_append, length_byteBits, ih, List.length_cons]
    omega

theorem getD_byteBits (b : UInt8) (i : ℕ) : (byteBits b).getD i false = b.toBitVec.getLsbD i := by
  by_cases hi : i < 8
  · rw [List.getD_eq_getElem _ _ (by simpa using hi)]
    exact List.getElem_ofFn ..
  · rw [List.getD_eq_default _ _ (by simp; omega), BitVec.getLsbD_of_ge _ _ (by omega)]

theorem vec_byteBits (b : UInt8) : vec 32 (byteBits b) = b.toUInt32.toBitVec := by
  apply BitVec.eq_of_getLsbD_eq
  intro i hi
  rw [Crc.getLsbD_vec hi, getD_byteBits, UInt8.toBitVec_toUInt32, BitVec.getLsbD_setWidth]
  simp [hi]

theorem byteBits_injective : Function.Injective byteBits := by
  intro b b' h
  apply UInt8.toBitVec_inj.mp
  apply BitVec.eq_of_getLsbD_eq
  intro i _
  rw [← getD_byteBits, ← getD_byteBits, h]

/-! ## The table -/

theorem low_bit (c : UInt32) : (c &&& 1 ≠ 0) ↔ c.toBitVec.getLsbD 0 = true := by
  have hand : (c &&& 1).toBitVec = BitVec.setWidth 32 (BitVec.ofBool (c.toBitVec.getLsbD 0)) := by
    rw [UInt32.toBitVec_and]
    exact BitVec.and_one_eq_setWidth_ofBool_getLsbD
  rw [ne_eq, ← UInt32.toBitVec_inj, hand]
  cases c.toBitVec.getLsbD 0 <;> decide

theorem move_toBitVec (c : UInt32) :
    (if (c &&& 1) ≠ 0 then (0xEDB88320 : UInt32) ^^^ (c >>> 1) else c >>> 1).toBitVec = shift CRC_POLY c.toBitVec := by
  rw [shift]
  by_cases hlow : c &&& 1 ≠ 0
  · rw [if_pos hlow, if_pos ((low_bit c).mp hlow), UInt32.toBitVec_xor, BitVec.xor_comm]
    rfl
  · rw [if_neg hlow, if_neg fun h => hlow ((low_bit c).mpr h), BitVec.xor_zero]
    rfl

theorem table_toBitVec (c : UInt32) : (crc32Table c).toBitVec = (shift CRC_POLY)^[8] c.toBitVec :=
  Function.Semiconj.iterate_right (f := UInt32.toBitVec) move_toBitVec 8 c

/-- A table step is eight bits of the register. -/
theorem step_toBitVec (crc : UInt32) (b : UInt8) : (crc32Step crc b).toBitVec = feed CRC_POLY crc.toBitVec (byteBits b) := by
  obtain ⟨x, hx⟩ : ∃ x, x = crc.toBitVec ^^^ b.toUInt32.toBitVec := ⟨_, rfl⟩
  have hlow : ∀ i, (255#32).getLsbD i = decide (i < 8) := by
    intro i
    have hones : (255 : ℕ) = 2 ^ 8 - 1 := by decide
    rw [BitVec.getLsbD_ofNat, hones, Nat.testBit_two_pow_sub_one]
    by_cases hi : i < 8
    · simp [hi]; omega
    · simp [hi]
  have hsplit : x = (x &&& 255#32) ^^^ (x &&& ~~~255#32) := by
    apply BitVec.eq_of_getLsbD_eq
    intro i hi
    simp only [BitVec.getLsbD_xor, BitVec.getLsbD_and, BitVec.getLsbD_not, hi, decide_true, Bool.true_and]
    cases x.getLsbD i <;> cases (255#32).getLsbD i <;> rfl
  -- above the byte the register only moves, and the byte is not there
  have hhigh : (shift CRC_POLY)^[8] (x &&& ~~~255#32) = crc.toBitVec >>> 8 := by
    have hclear : ∀ i < 8, (x &&& ~~~255#32).getLsbD i = false := by
      intro i hi
      rw [BitVec.getLsbD_and, BitVec.getLsbD_not, hlow, decide_eq_true hi, Bool.not_true, Bool.and_false, Bool.and_false]
    rw [Crc.shift_iterate_low CRC_POLY hclear]
    apply BitVec.eq_of_getLsbD_eq
    intro i hi
    have hbyte : b.toUInt32.toBitVec.getLsbD (8 + i) = false := by
      rw [UInt8.toBitVec_toUInt32, BitVec.getLsbD_setWidth, BitVec.getLsbD_of_ge _ _ (by omega)]
      simp
    rw [BitVec.getLsbD_ushiftRight, BitVec.getLsbD_ushiftRight, BitVec.getLsbD_and, BitVec.getLsbD_not, hlow, hx,
      BitVec.getLsbD_xor, hbyte]
    by_cases hin : 8 + i < 32
    · simp [hin]
    · simp [BitVec.getLsbD_of_ge _ _ (Nat.not_lt.mp hin)]
  have hwidth : (byteBits b).length ≤ 32 := by simp
  calc (crc32Step crc b).toBitVec = (shift CRC_POLY)^[8] (x &&& 255#32) ^^^ (crc.toBitVec >>> 8) := by
        rw [crc32Step, UInt32.toBitVec_xor, table_toBitVec, hx]
        rfl
    _ = (shift CRC_POLY)^[8] (x &&& 255#32) ^^^ (shift CRC_POLY)^[8] (x &&& ~~~255#32) := by rw [hhigh]
    _ = (shift CRC_POLY)^[8] x := by rw [← Crc.shift_iterate_xor, ← hsplit]
    _ = feed CRC_POLY crc.toBitVec (byteBits b) := by
        rw [Crc.feed_eq_iterate CRC_POLY hwidth, vec_byteBits, length_byteBits, hx]

/-- What is left in the register after some bytes. -/
def register (data : Bytes) : BitVec 32 := feed CRC_POLY 0xFFFFFFFF#32 (bits data)

theorem fold_toBitVec (data : Bytes) (crc : UInt32) :
    (data.foldl crc32Step crc).toBitVec = feed CRC_POLY crc.toBitVec (bits data) := by
  induction data generalizing crc with
  | nil => rfl
  | cons b data ih =>
    have hcons : bits (b :: data) = byteBits b ++ bits data := rfl
    rw [List.foldl_cons, ih, step_toBitVec, hcons, Crc.feed_append]

theorem crc32_toBitVec (data : Bytes) : (crc32 data).toBitVec = register data ^^^ 0xFFFFFFFF#32 := by
  rw [crc32, UInt32.toBitVec_xor, fold_toBitVec]
  rfl

/-! ## Stored checksums -/

theorem getD_bits (bytes : Bytes) (i : ℕ) : (bits bytes).getD i false = (fromLe bytes).testBit i := by
  induction bytes generalizing i with
  | nil => simp [bits, fromLe]
  | cons b bytes ih =>
    have hcons : bits (b :: bytes) = byteBits b ++ bits bytes := rfl
    have hvalue : fromLe (b :: bytes) = 2 ^ 8 * fromLe bytes + b.toNat := Nat.add_comm ..
    have hbyte : (byteBits b).getD i false = b.toNat.testBit i := getD_byteBits b i
    rw [hcons, hvalue, Nat.testBit_two_pow_mul_add _ b.toNat_lt, ← hbyte, ← ih]
    by_cases hi : i < 8
    · rw [if_pos hi, List.getD_append _ _ _ _ (by simpa using hi)]
    · rw [if_neg hi, List.getD_append_right _ _ _ _ (by simpa using hi), length_byteBits]

/-- Four bytes hold a register as the number they are read as. -/
theorem vec_bits {sum : Bytes} (hsum : sum.length = 4) : (vec 32 (bits sum)).toNat = fromLe sum := by
  apply Nat.eq_of_testBit_eq
  intro i
  rw [← getD_bits, BitVec.testBit_toNat]
  by_cases hi : i < 32
  · exact Crc.getLsbD_vec hi
  · rw [BitVec.getLsbD_of_ge _ _ (Nat.not_lt.mp hi), List.getD_eq_default]
    rw [length_bits, hsum]
    omega

/-- What is in the register after a message and its own checksum, whatever the message. -/
def residue : BitVec 32 := (shift CRC_POLY)^[32] 0xFFFFFFFF#32

theorem crc32_eq_iff {body sum : Bytes} (hsum : sum.length = 4) :
    (crc32 body).toNat = fromLe sum ↔ register (body ++ sum) = residue := by
  have hwidth : (bits sum).length = 32 := by rw [length_bits, hsum]
  have hregister : register (body ++ sum) = (shift CRC_POLY)^[32] (register body ^^^ vec 32 (bits sum)) := by
    rw [register, bits_append, Crc.feed_append, Crc.feed_eq_iterate CRC_POLY hwidth.le, hwidth]
    rfl
  have hmoves := (Crc.shift_injective CRC_POLY poly_top).iterate 32
  rw [hregister, residue, hmoves.eq_iff, ← vec_bits hsum, ← UInt32.toNat_toBitVec, crc32_toBitVec, BitVec.toNat_inj]
  constructor
  · intro h
    rw [← h, ← BitVec.xor_assoc, BitVec.xor_self, BitVec.zero_xor]
  · intro h
    rw [← h, ← BitVec.xor_assoc, BitVec.xor_self, BitVec.zero_xor]

/-- A message with its checksum, hit by a burst, is not one. -/
theorem crc32_burst {body body' sum sum' : Bytes} (hsum : sum.length = 4) (hsum' : sum'.length = 4)
    (hburst : Burst 32 (bits (body ++ sum)) (bits (body' ++ sum'))) (h : (crc32 body).toNat = fromLe sum) :
    (crc32 body').toNat ≠ fromLe sum' := by
  intro h'
  have hmeet := ((crc32_eq_iff hsum).mp h).trans ((crc32_eq_iff hsum').mp h').symm
  exact Crc.feed_burst CRC_POLY poly_top hburst _ hmeet

theorem length_of_burst {bytes bytes' : Bytes} (h : Burst 32 (bits bytes) (bits bytes')) : bytes'.length = bytes.length := by
  have hlength := h.length_eq
  rw [length_bits, length_bits] at hlength
  omega

/-- A changed byte is a burst. -/
theorem burst_byte {b b' : UInt8} (h : b ≠ b') (xs ys : Bytes) : Burst 32 (bits (xs ++ b :: ys)) (bits (xs ++ b' :: ys)) where
  changed := by
    rw [bits_append, bits_append]
    intro heq
    have hbytes : byteBits b ++ bits ys = byteBits b' ++ bits ys := List.append_cancel_left heq
    exact h (byteBits_injective (List.append_cancel_right hbytes))
  window := ⟨bits xs, byteBits b, byteBits b', bits ys, bits_append .., bits_append .., by simp, by simp⟩

/-! ## Objects -/

namespace Object

/-- A finished object hit by a burst does not open. -/
theorem openObject_burst {body bytes' magic : Bytes} (hmagic : magic.length ≤ body.length)
    (hburst : Burst 32 (bits (finish body)) (bits bytes')) (what : String) :
    openObject bytes' magic what = .error (.corruption s!"{what}: CRC mismatch") := by
  have hlength := length_of_burst hburst
  rw [length_finish] at hlength
  have hlong : ¬ bytes'.length < magic.length + 4 := by omega
  have hcut := List.take_append_drop (bytes'.length - 4) bytes'
  have hsum' : (bytes'.drop (bytes'.length - 4)).length = 4 := by rw [List.length_drop]; omega
  rw [← hcut] at hburst
  have hcrc := crc32_burst (by simp) hsum' hburst (crc32_le body).symm
  rw [openObject, if_neg hlong]
  dsimp only
  rw [if_pos hcrc]

theorem decodeSegment_burst {items : Segment} {bytes' : Bytes} (hburst : Burst 32 (bits (encodeSegment items)) (bits bytes')) :
    decodeSegment bytes' = .error (.corruption "log segment: CRC mismatch") := by
  rw [decodeSegment, openObject_burst (by simp) hburst]
  rfl

theorem decodeLayer_burst {magic bytes' : Bytes} {records : List PageRecord}
    (hburst : Burst 32 (bits (encodeLayer magic records)) (bits bytes')) (what : String) :
    decodeLayer bytes' magic what = .error (.corruption s!"{what}: CRC mismatch") := by
  rw [decodeLayer, openObject_burst (by simp) hburst]
  rfl

end Object

/-! ## Frames -/

namespace LocalFile

open Framing (toLE ofLE)

/-- A frame: a length word, as many bytes as it says, and their CRC. -/
structure Framed (word body sum : Bytes) : Prop where
  four : word.length = 4
  counts : ofLE word = body.length
  checks : sum = toLE 4 (crc32 body).toNat

theorem ofLE_eq_fromLe (bytes : Bytes) : ofLE bytes = fromLe bytes := by
  induction bytes with
  | nil => rfl
  | cons b bytes ih => rw [ofLE, fromLe, ih]

/-- What `append_frame` writes is a frame, when its length word can hold its length. -/
theorem framed_frameBytes {tag : UInt8} {payload : Bytes} (h : payload.length + 1 < 2 ^ 32) :
    ∃ word sum, frameBytes tag payload = word ++ (tag :: payload ++ sum) ∧ Framed word (tag :: payload) sum :=
  ⟨toLE 4 (payload.length + 1), toLE 4 (crc32Pair tag payload).toNat, by simp [frameBytes],
    Framing.length_toLE .., Framing.ofLE_toLE (k := 4) h, rfl⟩

/-- The reader stops at a frame whose body or CRC a burst has hit. -/
theorem readFrame_burst {word body sum rest : Bytes} (h : Framed word body sum)
    (hburst : Burst 32 (bits (body ++ sum)) (bits rest)) (next : Nat) (after : Bytes) :
    readFrame next (word ++ (rest ++ after)) = .stop next := by
  have hsum : sum.length = 4 := by rw [h.checks, Framing.length_toLE]
  have hlength : rest.length = body.length + 4 := by rw [length_of_burst hburst, List.length_append, hsum]
  have hlong : ¬ (word ++ (rest ++ after)).length < 4 := by rw [List.length_append, h.four]; omega
  have hword : (word ++ (rest ++ after)).take 4 = word := List.take_left' h.four
  have hdrop : (word ++ (rest ++ after)).drop 4 = rest ++ after := List.drop_left' h.four
  rw [readFrame, if_neg hlong]
  dsimp only
  rw [hword, h.counts]
  by_cases hfit : body.length = 0 ∨ (word ++ (rest ++ after)).length < 4 + body.length + 4
  · rw [if_pos hfit]
  have hbody : (rest ++ after).take body.length = rest.take body.length := List.take_append_of_le_length (by omega)
  have hstored : ((rest ++ after).drop body.length).take 4 = rest.drop body.length := by
    have htail : (rest.drop body.length).length = 4 := by rw [List.length_drop]; omega
    rw [List.drop_append_of_le_length (by omega), List.take_left' htail]
  have hcut := List.take_append_drop body.length rest
  rw [← hcut] at hburst
  have hstart : (crc32 body).toNat = fromLe sum := by
    rw [h.checks, ← ofLE_eq_fromLe, Framing.ofLE_toLE (crc32 body).toNat_lt]
  have hcrc := crc32_burst hsum (by rw [List.length_drop]; omega) hburst hstart
  rw [if_neg hfit, ← List.drop_drop, hdrop, hbody, hstored, ofLE_eq_fromLe, if_pos hcrc]

end LocalFile

/-! ## Detection -/

open Object LocalFile in
/-- **Bursts are found out.** An object with at most 32 consecutive bits changed, in the order in
which the CRC takes them, is refused as corrupt; a log whose frames end where such a frame begins
is read up to there. -/
theorem bursts_detected (items : Segment) (records : List PageRecord) :
    (∀ bytes', Burst 32 (bits (encodeSegment items)) (bits bytes') → ∃ message, decodeSegment bytes' = .error (.corruption message)) ∧
    (∀ bytes', Burst 32 (bits (encodeDelta records)) (bits bytes') → ∃ message, decodeDelta bytes' = .error (.corruption message)) ∧
    (∀ bytes', Burst 32 (bits (encodeImage records)) (bits bytes') → ∃ message, decodeImage bytes' = .error (.corruption message)) ∧
    (∀ log word body sum rest after frames next, readLog log = .ok (frames, log.length, next) → Framed word body sum →
      Burst 32 (bits (body ++ sum)) (bits rest) →
      readLog (log ++ (word ++ (rest ++ after))) = .ok (frames, log.length, next)) := by
  refine ⟨fun _ h => ⟨_, decodeSegment_burst h⟩, fun _ h => ⟨_, decodeLayer_burst h _⟩, fun _ h => ⟨_, decodeLayer_burst h _⟩, ?_⟩
  intro log word body sum rest after frames next hlog hframe hburst
  exact readLog_extend hlog (readFrame_burst hframe hburst next after)

open Object LocalFile in
/-- A flipped byte in a segment of one record, and in the first frame of a file. -/
theorem bursts_detected_byte :
    (∃ message, decodeSegment [66, 68, 76, 79, 71, 49, 1, 0, 0, 0, 1, 1, 0, 0, 0, 119, 22, 6, 108, 30] = .error (.corruption message)) ∧
    readLog (header ++ ([9, 0, 0, 0] ++ ([3, 2, 0, 0, 0, 0, 0, 0, 0, 245, 40, 46, 19] ++ []))) = .ok ([], header.length, 1) := by
  have h := bursts_detected [.wal [120]] []
  have hsegment : encodeSegment [.wal [120]] =
      [66, 68, 76, 79, 71, 49, 1, 0, 0, 0, 1, 1, 0, 0, 0] ++ 120 :: [22, 6, 108, 30] := by decide +kernel
  have hframe : Framed [9, 0, 0, 0] [3, 1, 0, 0, 0, 0, 0, 0, 0] [245, 40, 46, 19] := ⟨by decide, by decide, by decide +kernel⟩
  have hlog : readLog header = .ok ([], header.length, 1) := by decide +kernel
  refine ⟨h.1 _ ?_, h.2.2.2 header _ _ _ _ [] [] 1 hlog hframe ?_⟩
  · rw [hsegment]
    exact burst_byte (by decide) _ _
  · exact burst_byte (b := 1) (by decide) [3] [0, 0, 0, 0, 0, 0, 0, 245, 40, 46, 19]

end Twill.Storage
