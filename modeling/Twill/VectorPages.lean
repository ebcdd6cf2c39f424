/-
The pages of a vector index (`vector.rs`: `to_page_frames`, `parse_page_header`,
`from_page_frames`).

A checkpoint is a header page and body pages of node records, as many to a page as fit. What
was read is read back from pages of full size, so what follows a page's last record is zeros.
-/
import Twill.VectorGraph
import Twill.WalBytes

namespace Twill

open ByteReader (Reader times fromLe)
open WalBytes (putU32 putU64 textBytes)

namespace VectorIndex

/-- `PAGE_CAP`. -/
def pageCap : Nat := 4096

/-- `PAGE_MAGIC`. -/
def pageMagic : List UInt8 := textBytes "TWIVIDX1"

/-- `set_rebuild_floor`. -/
def setRebuildFloor (ix : VectorIndex) (lsn : Nat) : VectorIndex := { ix with rebuildFloor := lsn }

/-! ## Writing -/

def nodeFlags (n : Node) : UInt8 := (if n.removed then (1 : UInt8) else 0) ||| ((if n.dead then (1 : UInt8) else 0) <<< 1)

def putLinks (nbs : List Nat) : List UInt8 := putU32 nbs.length ++ nbs.flatMap putU32

/-- The record of a node. -/
def putNode (n : Node) : List UInt8 :=
  putU64 n.vid ++ (nodeFlags n :: (putU32 n.neighbors.length ++
    (n.vector.flatMap (fun x => putU32 x.toNat) ++ n.neighbors.flatMap putLinks)))

/-- The pages written so far, and the one being filled. -/
structure Packing where
  body : List (List UInt8)
  page : List UInt8
  count : Nat

/-- The closure `flush`. -/
def Packing.flush (p : Packing) : Packing :=
  if p.count = 0 then p else ⟨p.body ++ [putU32 p.count ++ p.page], [], 0⟩

/-- One node of the packing loop. -/
def Packing.add (dim : Nat) (p : Packing) (n : Node) : Option Packing :=
  if n.vector.length ≠ dim then none
  else
    let rec_ := putNode n
    if rec_.length + 4 > pageCap then none
    else
      let p := if 4 + p.page.length + rec_.length > pageCap then p.flush else p
      some { p with page := p.page ++ rec_, count := p.count + 1 }

/-- The header page: magic, metric, dimension, node count, entry, top layer, LSN, dead count, floor,
body pages and name. -/
def putHeader (ix : VectorIndex) (dim reflectedLsn bodyPages : Nat) : List UInt8 :=
  pageMagic ++ (ix.definition.params.metric.tag :: (putU32 dim ++ (putU64 ix.nodes.length ++
    (putU64 (ix.entry.getD (2 ^ 64 - 1)) ++ (putU32 ix.maxLevel ++ (putU64 reflectedLsn ++ (putU64 ix.deadCount ++
      (putU64 ix.rebuildFloor ++ (putU32 bodyPages ++
        (putU32 (textBytes ix.definition.name).length ++ textBytes ix.definition.name))))))))))

/-- `to_page_frames`. -/
def toPageFrames (ix : VectorIndex) (reflectedLsn : Nat) : Option (List (List UInt8)) :=
  match ix.nodes with
  | [] => none
  | first :: _ => do
    let dim := first.vector.length
    let packed ← ix.nodes.foldlM (Packing.add dim) ⟨[], [], 0⟩
    let body := packed.flush.body
    let header := ix.putHeader dim reflectedLsn body.length
    if header.length > pageCap then none else some (header :: body)

/-! ## Reading -/

/-- `VectorPageHeader`. -/
structure PageHeader where
  metric : Metric
  dim : Nat
  nodeCount : Nat
  entry : Option Nat
  maxLevel : Nat
  reflectedLsn : Nat
  deadCount : Nat
  rebuildFloor : Nat
  numBodyPages : Nat
  name : String

def take (n : Nat) : Reader Option (List UInt8) := ByteReader.take none n

def getU8 : Reader Option UInt8 := (fun bytes => bytes.headD 0) <$> take 1

/-- `get_u32`. -/
def getU32 : Reader Option Nat := fromLe <$> take 4

/-- `get_u64`. -/
def getU64 : Reader Option Nat := fromLe <$> take 8

/-- What follows the magic. -/
def getHeader : Reader Option PageHeader := do
  let metric := Metric.fromTag (← getU8)
  let dim ← getU32
  let nodeCount ← getU64
  let entryRaw ← getU64
  let maxLevel ← getU32
  let reflectedLsn ← getU64
  let deadCount ← getU64
  let rebuildFloor ← getU64
  let numBodyPages ← getU32
  let name ← take (← getU32)
  match String.fromUTF8? ⟨name.toArray⟩ with
  | some name => return {
      metric, dim, nodeCount, maxLevel, reflectedLsn, deadCount, rebuildFloor, numBodyPages, name
      entry := if entryRaw ≠ 2 ^ 64 - 1 then some entryRaw else none }
  | none => fun _ => none

/-- `parse_page_header`. -/
def parsePageHeader (frame : List UInt8) : Option PageHeader :=
  if frame.take 8 ≠ pageMagic then none else (getHeader (frame.drop 8)).map (·.1)

def getLinks : Reader Option (List Nat) := do
  let deg ← getU32
  times deg getU32

/-- The record of a node of this dimension. -/
def getNode (dim : Nat) : Reader Option Node := do
  let vid ← getU64
  let flags ← getU8
  let nlevels ← getU32
  let vector ← times dim (UInt32.ofNat <$> getU32)
  let neighbors ← times nlevels getLinks
  return ⟨vid, vector, neighbors, flags &&& 1 ≠ 0, flags &&& 2 ≠ 0⟩

/-- The nodes of a body page. -/
def getPage (dim : Nat) : Reader Option (List Node) := do
  let count ← getU32
  times count (getNode dim)

/-- The id map of the nodes not rolled back. -/
def vidMap (nodes : List Node) : AList fun _ : Nat => Nat :=
  (nodes.zipIdx.filter fun p => !p.1.removed).foldl (fun m p => m.insert p.1.vid p.2) ∅

/-- `from_page_frames`. -/
def fromPageFrames (d : IndexDef) (frames : List (List UInt8)) : Option VectorIndex :=
  match frames with
  | [] => none
  | first :: bodies => do
    let header ← parsePageHeader first
    if header.numBodyPages + 1 ≠ frames.length then none
    else if header.metric ≠ d.params.metric then none
    else
      let pages ← bodies.mapM fun body => (getPage header.dim body).map (·.1)
      let nodes := pages.flatten
      if nodes.length ≠ header.nodeCount then none
      else
        let deadCount := nodes.countP fun n => !n.removed && n.dead
        if deadCount ≠ header.deadCount then none
        else some {
          definition := d, nodes, byVid := vidMap nodes, entry := header.entry, maxLevel := header.maxLevel
          rng := 0x243F6A8885A308D3, deadCount, rebuildFloor := header.rebuildFloor }

end VectorIndex

end Twill
