/-
The bytes of the object-storage backend's durable objects (`storage/src/object/codec.rs`).

An object is a magic, a body and the CRC32 of both. The body is opened once and then read
field by field off the front; what is left of it after the last item is not looked at.
Lengths and counts are written as four bytes, so what `as u32` cuts off is lost; a segment or
a layer is `Short` when nothing is.
-/
import Twill.Storage.ObjectStorage
import Twill.Lib.ByteReader

namespace Twill.Storage.Object

open ByteReader (Reader Reads toLe fromLe times)

def SEG_MAGIC : Bytes := [0x42, 0x44, 0x4C, 0x4F, 0x47, 0x31]
def DELTA_MAGIC : Bytes := [0x42, 0x44, 0x44, 0x45, 0x4C, 0x31]
def IMAGE_MAGIC : Bytes := [0x42, 0x44, 0x49, 0x4D, 0x47, 0x31]

def ITEM_WAL : UInt8 := 1
def ITEM_PAGE : UInt8 := 2

/-! ## Writing -/

/-- Appends the CRC32 over the body. -/
def finish (body : Bytes) : Bytes := body ++ toLe 4 (crc32 body).toNat

def putItem : LogItem → Bytes
  | .wal bytes => ITEM_WAL :: (toLe 4 bytes.length ++ bytes)
  | .page pageId image => ITEM_PAGE :: (toLe 8 pageId ++ (toLe 4 image.length ++ image))

def encodeSegment (items : Segment) : Bytes := finish (SEG_MAGIC ++ (toLe 4 items.length ++ items.flatMap putItem))

def putRecord (r : PageRecord) : Bytes := toLe 8 r.pageId ++ (toLe 8 r.lsn ++ (toLe 4 r.image.length ++ r.image))

def encodeLayer (magic : Bytes) (records : List PageRecord) : Bytes :=
  finish (magic ++ (toLe 4 records.length ++ records.flatMap putRecord))

def encodeDelta (records : List PageRecord) : Bytes := encodeLayer DELTA_MAGIC records

def encodeImage (records : List PageRecord) : Bytes := encodeLayer IMAGE_MAGIC records

/-! ## Reading -/

/-- `Reader::open`: what follows the magic of an object whose CRC is right. -/
def openObject (bytes magic : Bytes) (what : String) : Except StorageError Bytes :=
  if bytes.length < magic.length + 4 then .error (.corruption s!"{what}: object too short")
  else
    let body := bytes.take (bytes.length - 4)
    let stored := fromLe (bytes.drop (bytes.length - 4))
    if (crc32 body).toNat ≠ stored then .error (.corruption s!"{what}: CRC mismatch")
    else if body.take magic.length ≠ magic then .error (.corruption s!"{what}: bad magic")
    else .ok (body.drop magic.length)

abbrev ObjectReader := Reader (Except StorageError)

def take (n : Nat) : ObjectReader Bytes := ByteReader.take (.error (.corruption "object: truncated field")) n

def u8 : ObjectReader UInt8 := (·.headD 0) <$> take 1

def u32 : ObjectReader Nat := fromLe <$> take 4

def u64 : ObjectReader Nat := fromLe <$> take 8

def logItem : ObjectReader LogItem := do
  let tag ← u8
  if tag = ITEM_WAL then
    let len ← u32
    return .wal (← take len)
  else if tag = ITEM_PAGE then
    let pageId ← u64
    let len ← u32
    if PAGE_SIZE < len then throw (.corruption s!"log page image {len} exceeds PAGE_SIZE {PAGE_SIZE}")
    return .page pageId (← take len)
  else throw (.corruption s!"log segment: unknown item tag {tag}")

def decodeSegment (bytes : Bytes) : Except StorageError Segment := do
  let body ← openObject bytes SEG_MAGIC "log segment"
  (do times (← u32) logItem : ObjectReader Segment).run' body

def pageRecord (what : String) : ObjectReader PageRecord := do
  let pageId ← u64
  let lsn ← u64
  let len ← u32
  if PAGE_SIZE < len then throw (.corruption s!"{what} page image {len} exceeds PAGE_SIZE {PAGE_SIZE}")
  return ⟨pageId, lsn, ← take len⟩

def decodeLayer (bytes magic : Bytes) (what : String) : Except StorageError (List PageRecord) := do
  let body ← openObject bytes magic what
  (do times (← u32) (pageRecord what) : ObjectReader (List PageRecord)).run' body

def decodeDelta (bytes : Bytes) : Except StorageError (List PageRecord) := decodeLayer bytes DELTA_MAGIC "delta layer"

def decodeImage (bytes : Bytes) : Except StorageError (List PageRecord) := decodeLayer bytes IMAGE_MAGIC "image layer"

/-! ## Objects -/

theorem crc32_le (data : Bytes) : fromLe (toLe 4 (crc32 data).toNat) = (crc32 data).toNat := by
  have hbound : (crc32 data).toNat < 256 ^ 4 := (crc32 data).toNat_lt
  rw [ByteReader.fromLe_toLe, Nat.mod_eq_of_lt hbound]

@[simp] theorem length_finish (body : Bytes) : (finish body).length = body.length + 4 := by simp [finish]

theorem take_finish (body : Bytes) : (finish body).take ((finish body).length - 4) = body := by
  rw [length_finish, Nat.add_sub_cancel, finish, List.take_left]

theorem drop_finish (body : Bytes) : (finish body).drop ((finish body).length - 4) = toLe 4 (crc32 body).toNat := by
  rw [length_finish, Nat.add_sub_cancel, finish, List.drop_left]

/-- A finished object opens under its own magic. -/
theorem openObject_finish (magic body : Bytes) (what : String) : openObject (finish (magic ++ body)) magic what = .ok body := by
  have hlong : ¬ (finish (magic ++ body)).length < magic.length + 4 := by simp
  have hcrc : ¬ (crc32 (magic ++ body)).toNat ≠ fromLe (toLe 4 (crc32 (magic ++ body)).toNat) := by rw [crc32_le]; simp
  rw [openObject, if_neg hlong, take_finish, drop_finish]
  dsimp only
  rw [if_neg hcrc, List.take_left, if_neg (by simp), List.drop_left]

/-- What is opened starts with the magic. -/
theorem openObject_magic {bytes magic body : Bytes} {what : String} (h : openObject bytes magic what = .ok body) :
    magic <+: bytes := by
  unfold openObject at h
  split at h
  · exact absurd h (by simp)
  dsimp only at h
  split at h
  · exact absurd h (by simp)
  split at h
  · exact absurd h (by simp)
  · next hmagic =>
    have hbody : magic <+: bytes.take (bytes.length - 4) := by
      rw [← not_not.mp hmagic]
      exact List.take_prefix _ _
    exact hbody.trans (List.take_prefix _ _)

/-! ## Fields -/

theorem reads_u8 (b : UInt8) : Reads u8 [b] b := (Reads.take _ [b]).map _

/-- A number is read modulo what its bytes can hold. -/
theorem reads_u32_mod (n : Nat) : Reads u32 (toLe 4 n) (n % 2 ^ 32) := Reads.number _ 4 n

theorem reads_u32 {n : Nat} (hn : n < 2 ^ 32) : Reads u32 (toLe 4 n) n := by
  have hread := reads_u32_mod n
  rwa [Nat.mod_eq_of_lt hn] at hread

theorem reads_u64 {n : Nat} (hn : n < U64) : Reads u64 (toLe 8 n) n := by
  have hread : Reads u64 (toLe 8 n) (n % U64) := Reads.number _ 8 n
  rwa [Nat.mod_eq_of_lt hn] at hread

theorem reads_take (bytes : Bytes) : Reads (take bytes.length) bytes bytes := Reads.take _ bytes

/-- A page image within bounds, after its length. -/
theorem reads_image {α : Type} {image : Bytes} (himage : image.length ≤ PAGE_SIZE) (e : Nat → StorageError) (f : Bytes → α) :
    Reads (do
      let len ← u32
      if PAGE_SIZE < len then throw (e len)
      return f (← take len) : ObjectReader α) (toLe 4 image.length ++ image) (f image) := by
  have hbound : image.length < 2 ^ 32 := lt_of_le_of_lt himage (by decide)
  refine (reads_u32 hbound).bind ?_
  rw [if_neg (Nat.not_lt.mpr himage)]
  exact Reads.last (reads_take image) f

/-! ## Items -/

/-- Nothing of an item is cut off, and its image fits a page. -/
def LogItem.Short : LogItem → Prop
  | .wal bytes => bytes.length < 2 ^ 32
  | .page pageId image => pageId < U64 ∧ image.length ≤ PAGE_SIZE

structure ShortSegment (items : Segment) : Prop where
  count : items.length < 2 ^ 32
  items : ∀ item ∈ items, item.Short

theorem reads_logItem {item : LogItem} (h : item.Short) : Reads logItem (putItem item) item := by
  cases item with
  | wal bytes =>
    refine (reads_u8 ITEM_WAL).bind ?_
    exact (reads_u32 h).bind (Reads.last (reads_take bytes) LogItem.wal)
  | page pageId image =>
    refine (reads_u8 ITEM_PAGE).bind ?_
    exact (reads_u64 h.1).bind (reads_image h.2 _ (LogItem.page pageId))

theorem decodeSegment_encodeSegment {items : Segment} (h : ShortSegment items) :
    decodeSegment (encodeSegment items) = .ok items := by
  have hread : Reads (do times (← u32) logItem : ObjectReader Segment) (toLe 4 items.length ++ items.flatMap putItem) items :=
    (reads_u32 h.count).bind (Reads.times fun item hitem => reads_logItem (h.items item hitem))
  have hall := hread []
  rw [List.append_nil] at hall
  rw [decodeSegment, encodeSegment, openObject_finish]
  change (Prod.fst <$> _ : Except StorageError Segment) = _
  exact congrArg (Prod.fst <$> ·) hall

/-- A count or a length that was read is one that could be written. -/
theorem lt_of_u32 {bytes : Bytes} {p : Nat × Bytes} (h : u32 bytes = .ok p) : p.1 < 2 ^ 32 := by
  change (take 4 bytes >>= fun q => .ok (fromLe q.1, q.2)) = .ok p at h
  cases hread : take 4 bytes with
  | error e =>
    rw [hread] at h
    exact absurd h (by simp [bind, Except.bind])
  | ok q =>
    rw [hread] at h
    obtain rfl := Except.ok.inj h
    have hlength : q.1.length = 4 := ByteReader.eq_of_take (by simp) hread
    have hbound := ByteReader.fromLe_lt q.1
    rw [hlength] at hbound
    exact hbound

theorem length_of_logItem {bytes body rest : Bytes} (h : logItem bytes = .ok (.wal body, rest)) : body.length < 2 ^ 32 := by
  obtain ⟨⟨tag, bytes₁⟩, -, h⟩ := ByteReader.of_bind h
  dsimp only at h
  split at h
  · obtain ⟨⟨len, bytes₂⟩, hlen, h⟩ := ByteReader.of_bind h
    obtain ⟨⟨body', bytes₃⟩, hbody, h⟩ := ByteReader.of_bind h
    obtain ⟨rfl, rfl⟩ : body' = body ∧ bytes₃ = rest := by simpa using Except.ok.inj h
    have hlength : body'.length = len := ByteReader.eq_of_take (by simp) hbody
    rw [hlength]
    exact lt_of_u32 hlen
  · split at h
    · obtain ⟨⟨pageId, bytes₂⟩, -, h⟩ := ByteReader.of_bind h
      obtain ⟨⟨len, bytes₃⟩, -, h⟩ := ByteReader.of_bind h
      dsimp only at h
      split at h
      · exact absurd h (by simp [throw, throwThe, MonadExceptOf.throw, StateT.lift, bind, Except.bind, StateT.bind])
      · obtain ⟨q, -, h⟩ := ByteReader.of_bind h
        exact absurd (Except.ok.inj h) (by simp)
    · exact absurd h (by simp [throw, throwThe, MonadExceptOf.throw, StateT.lift, bind, Except.bind])

/-- What a decoder returns could have been written in full. -/
theorem of_decodeSegment {bytes : Bytes} {items : Segment} (h : decodeSegment bytes = .ok items) :
    items.length < 2 ^ 32 ∧ ∀ body, .wal body ∈ items → body.length < 2 ^ 32 := by
  rw [decodeSegment] at h
  cases hopen : openObject bytes SEG_MAGIC "log segment" with
  | error e =>
    rw [hopen] at h
    exact absurd h (by simp [bind, Except.bind])
  | ok opened =>
    rw [hopen] at h
    obtain ⟨p, hp, rfl⟩ : ∃ p, (do times (← u32) logItem : ObjectReader Segment) opened = .ok p ∧ p.1 = items := by
      change Prod.fst <$> (do times (← u32) logItem : ObjectReader Segment) opened = .ok items at h
      cases hp : (do times (← u32) logItem : ObjectReader Segment) opened with
      | error e =>
        rw [hp] at h
        exact absurd h (by simp)
      | ok p =>
        rw [hp] at h
        exact ⟨p, rfl, Except.ok.inj h⟩
    obtain ⟨⟨count, rest⟩, hcount, hitems⟩ := ByteReader.of_bind hp
    obtain ⟨hlength, hread⟩ := ByteReader.of_times hitems
    refine ⟨by rw [hlength]; exact lt_of_u32 hcount, fun body hbody => ?_⟩
    obtain ⟨start, rest', hitem⟩ := hread _ hbody
    exact length_of_logItem hitem

/-! ## Records -/

structure PageRecord.Short (r : PageRecord) : Prop where
  pageId : r.pageId < U64
  lsn : r.lsn < U64
  image : r.image.length ≤ PAGE_SIZE

structure ShortLayer (records : List PageRecord) : Prop where
  count : records.length < 2 ^ 32
  records : ∀ r ∈ records, r.Short

theorem reads_pageRecord {r : PageRecord} (h : r.Short) (what : String) : Reads (pageRecord what) (putRecord r) r :=
  (reads_u64 h.pageId).bind ((reads_u64 h.lsn).bind (reads_image h.image _ (PageRecord.mk r.pageId r.lsn)))

/-- A layer is read back under the magic it was written with. -/
theorem decodeLayer_encodeLayer {records : List PageRecord} (h : ShortLayer records) (magic : Bytes) (what : String) :
    decodeLayer (encodeLayer magic records) magic what = .ok records := by
  have hread : Reads (do times (← u32) (pageRecord what) : ObjectReader (List PageRecord))
      (toLe 4 records.length ++ records.flatMap putRecord) records :=
    (reads_u32 h.count).bind (Reads.times fun r hr => reads_pageRecord (h.records r hr) what)
  have hall := hread []
  rw [List.append_nil] at hall
  rw [decodeLayer, encodeLayer, openObject_finish]
  change (Prod.fst <$> _ : Except StorageError (List PageRecord)) = _
  exact congrArg (Prod.fst <$> ·) hall

/-! ## Which decoder accepts -/

def Accepts {α : Type} (x : Except StorageError α) : Prop := ∃ a, x = .ok a

theorem accepts_bind {α β : Type} {x : Except StorageError α} {f : α → Except StorageError β} (h : Accepts (x >>= f)) :
    Accepts x := by
  cases x with
  | ok a => exact ⟨a, rfl⟩
  | error e => obtain ⟨b, hb⟩ := h; exact absurd hb (by simp [bind, Except.bind])

theorem magic_of_decodeSegment {bytes : Bytes} (h : Accepts (decodeSegment bytes)) : SEG_MAGIC <+: bytes := by
  obtain ⟨body, hbody⟩ := accepts_bind h
  exact openObject_magic hbody

theorem magic_of_decodeLayer {bytes magic : Bytes} {what : String} (h : Accepts (decodeLayer bytes magic what)) :
    magic <+: bytes := by
  obtain ⟨body, hbody⟩ := accepts_bind h
  exact openObject_magic hbody

/-- No bytes start with two magics. -/
theorem not_two_magics {bytes : Bytes} (m n : Bytes) (hlength : m.length = n.length) (hne : m ≠ n) (hm : m <+: bytes) : ¬ n <+: bytes := by
  intro hn
  exact hne ((List.prefix_of_prefix_length_le hm hn hlength.le).eq_of_length hlength)

/-- **Objects are read back.** A segment and a layer decode to what they were encoded from,
and no bytes are accepted by two of the three decoders. -/
theorem object_codec {items : Segment} {records : List PageRecord} (hitems : ShortSegment items)
    (hrecords : ShortLayer records) (bytes : Bytes) :
    decodeSegment (encodeSegment items) = .ok items ∧
    decodeDelta (encodeDelta records) = .ok records ∧
    decodeImage (encodeImage records) = .ok records ∧
    ¬ (Accepts (decodeSegment bytes) ∧ Accepts (decodeDelta bytes)) ∧
    ¬ (Accepts (decodeSegment bytes) ∧ Accepts (decodeImage bytes)) ∧
    ¬ (Accepts (decodeDelta bytes) ∧ Accepts (decodeImage bytes)) := by
  refine ⟨decodeSegment_encodeSegment hitems, decodeLayer_encodeLayer hrecords _ _, decodeLayer_encodeLayer hrecords _ _, ?_, ?_, ?_⟩
  · rintro ⟨hseg, hdelta⟩
    exact not_two_magics SEG_MAGIC DELTA_MAGIC rfl (by decide) (magic_of_decodeSegment hseg) (magic_of_decodeLayer hdelta)
  · rintro ⟨hseg, himage⟩
    exact not_two_magics SEG_MAGIC IMAGE_MAGIC rfl (by decide) (magic_of_decodeSegment hseg) (magic_of_decodeLayer himage)
  · rintro ⟨hdelta, himage⟩
    exact not_two_magics DELTA_MAGIC IMAGE_MAGIC rfl (by decide) (magic_of_decodeLayer hdelta) (magic_of_decodeLayer himage)

/-- The same of a segment with a record and a page, a layer of one page, and that segment's bytes. -/
theorem object_codec_small :
    decodeSegment (encodeSegment [.wal [104, 105], .page 42 [171]]) = .ok [.wal [104, 105], .page 42 [171]] ∧
    decodeDelta (encodeDelta [⟨1, 10, [1]⟩]) = .ok [⟨1, 10, [1]⟩] ∧
    decodeImage (encodeImage [⟨1, 10, [1]⟩]) = .ok [⟨1, 10, [1]⟩] ∧
    ¬ (Accepts (decodeSegment (encodeSegment [.wal [104, 105]])) ∧ Accepts (decodeDelta (encodeSegment [.wal [104, 105]]))) := by
  have hitems : ShortSegment [.wal [104, 105], .page 42 [171]] :=
    ⟨by decide, by simp [LogItem.Short, U64, PAGE_SIZE]⟩
  have hrecords : ShortLayer [⟨1, 10, [1]⟩] :=
    ⟨by decide, by simp only [List.mem_singleton, forall_eq]; exact ⟨by decide, by decide, by decide⟩⟩
  have h := object_codec hitems hrecords (encodeSegment [.wal [104, 105]])
  exact ⟨h.1, h.2.1, h.2.2.1, h.2.2.2.1⟩

end Twill.Storage.Object
