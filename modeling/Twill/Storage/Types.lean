/-
The types of the storage seam (`storage/src/types.rs`). LSNs, page ids, epochs
and branch ids are naturals below `2 ^ 64`; a lease's deadline is not modelled.
-/
import Mathlib

namespace Twill.Storage

abbrev Bytes := List UInt8

def PAGE_SIZE : Nat := 4096

/-- The values of a `u64`. -/
def U64 : Nat := 2 ^ 64

/-- An opaque WAL record. -/
abbrev WalRecord := Bytes

/-- A durable record with the LSN its append assigned. -/
structure LogEntry where
  lsn : Nat
  record : WalRecord
  deriving DecidableEq, Repr

/-- The write token: its `epoch` fences every holder of a smaller one. -/
structure FenceToken where
  epoch : Nat
  owner : Nat
  deriving DecidableEq, Repr

/-- The root line's branch id. -/
def ROOT : Nat := 0

structure BranchRef where
  id : Nat
  parent : Nat
  baseLsn : Nat
  headLsn : Nat
  deriving DecidableEq, Repr

inductive StorageError where
  | notFound (message : String)
  | fenced (held current : Nat)
  | contended
  | transient (message : String)
  | durabilityUnconfirmed (message : String)
  | corruption (message : String)
  | invalid (message : String)
  deriving DecidableEq, Repr

/-- A page image in its fixed-size buffer: zero-padded, or cut, to `PAGE_SIZE`. -/
def padPage (image : Bytes) : Bytes :=
  image.take PAGE_SIZE ++ List.replicate (PAGE_SIZE - image.length) 0

/-! ## CRC32, of which `local.rs` and `object/codec.rs` hold a copy each -/

/-- One entry of the IEEE 802.3 table. -/
def crc32Table (i : UInt32) : UInt32 :=
  (fun c : UInt32 => if (c &&& 1) ≠ 0 then (0xEDB88320 : UInt32) ^^^ (c >>> 1) else c >>> 1)^[8] i

def crc32Step (crc : UInt32) (b : UInt8) : UInt32 :=
  crc32Table ((crc ^^^ b.toUInt32) &&& 0xFF) ^^^ (crc >>> 8)

def crc32 (data : Bytes) : UInt32 := data.foldl crc32Step 0xFFFFFFFF ^^^ 0xFFFFFFFF

end Twill.Storage
