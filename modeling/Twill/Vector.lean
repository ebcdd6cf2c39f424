/-
The HNSW vector index (`vector.rs`): the graph, its insertion, search,
tombstones and maintenance statistics. The page layout is not modelled here.

Distances are computed in binary32 and kept as bit patterns; the heaps of the
layer search are lists kept sorted by `Scored.cmp`, a total order.
-/
import Twill.Value
import Twill.Lib.Assoc

namespace Twill

/-! ## Distances -/

def f32s (v : List UInt32) : List Float32 := v.map Float32.ofBits

def dot (a b : List Float32) : Float32 := (a.zipWith (· * ·) b).foldl (· + ·) 0

def l2 (a b : List Float32) : Float32 :=
  ((a.zipWith (fun x y => (x - y) * (x - y)) b).foldl (· + ·) 0).sqrt

def cosineDistance (a b : List Float32) : Float32 :=
  let na := (dot a a).sqrt
  let nb := (dot b b).sqrt
  if na == 0 || nb == 0 then 1 else 1 - dot a b / (na * nb)

/-- Distance under a metric; smaller is nearer for every metric. -/
def distance (metric : Metric) (a b : List UInt32) : Float32 :=
  match metric with
  | .l2 => l2 (f32s a) (f32s b)
  | .cosine => cosineDistance (f32s a) (f32s b)
  | .innerProduct => -dot (f32s a) (f32s b)

/-- The sign-magnitude key `f32::total_cmp` compares by. -/
def totalKey (bits : UInt32) : Int :=
  if bits < 0x80000000 then (bits.toNat : Int) else -((bits.toNat : Int) - 0x80000000) - 1

/-- A node scored by its distance bits. -/
structure Scored where
  dist : UInt32
  idx : Nat
  deriving DecidableEq, Repr

def Scored.cmp (a b : Scored) : Ordering :=
  (compare (totalKey a.dist) (totalKey b.dist)).then (compare a.idx b.idx)

/-- Inserts into a list sorted nearest first. -/
def insertScored (s : Scored) : List Scored → List Scored
  | [] => [s]
  | t :: rest => if s.cmp t == .gt then t :: insertScored s rest else s :: t :: rest

/-! ## The graph -/

structure IndexParams where
  m : Nat
  efConstruction : Nat
  efSearch : Nat
  metric : Metric
  deriving DecidableEq, Repr

structure IndexDef where
  name : String
  table : String
  column : String
  params : IndexParams
  deriving DecidableEq, Repr

structure Node where
  vid : Nat
  vector : List UInt32
  /-- One adjacency list a layer. -/
  neighbors : List (List Nat)
  /-- The row version was rolled back: navigable, never returned. -/
  removed : Bool
  /-- The row version has a committed delete: still returned. -/
  dead : Bool
  deriving DecidableEq, Repr

structure VectorIndex where
  definition : IndexDef
  nodes : List Node
  byVid : AList fun _ : Nat => Nat
  entry : Option Nat
  maxLevel : Nat
  rng : UInt64
  deadCount : Nat
  rebuildFloor : Nat

namespace VectorIndex

def maintMinNodes : Nat := 64
def maintDeadRatioPct : Nat := 20

def new (d : IndexDef) : VectorIndex :=
  ⟨d, [], ∅, none, 0, 0x243F6A8885A308D3, 0, 0⟩

def node (ix : VectorIndex) (i : Nat) : Node := ix.nodes.getD i ⟨0, [], [], false, false⟩

def len (ix : VectorIndex) : Nat := ix.byVid.entries.length

def liveLen (ix : VectorIndex) : Nat := ix.len - ix.deadCount

def needsMaintenance (ix : VectorIndex) : Bool :=
  maintMinNodes ≤ ix.len && ix.len * maintDeadRatioPct ≤ ix.deadCount * 100

def modifyNode (ix : VectorIndex) (i : Nat) (f : Node → Node) : VectorIndex :=
  { ix with nodes := ix.nodes.modify i f }

/-- Marks the node of `vid` head-deleted; idempotent. -/
def markDead (ix : VectorIndex) (vid : Nat) : VectorIndex :=
  match ix.byVid.lookup vid with
  | some i =>
    if (ix.node i).dead then ix
    else { ix.modifyNode i (fun n => { n with dead := true }) with deadCount := ix.deadCount + 1 }
  | none => ix

/-- Tombstones a vid. -/
def remove (ix : VectorIndex) (vid : Nat) : VectorIndex :=
  match ix.byVid.lookup vid with
  | some i =>
    let dead := (ix.node i).dead
    { ix.modifyNode i (fun n => { n with removed := true }) with
      byVid := ix.byVid.erase vid
      deadCount := if dead then ix.deadCount - 1 else ix.deadCount }
  | none => ix

def dist (ix : VectorIndex) (q : List UInt32) (i : Nat) : UInt32 :=
  (distance ix.definition.params.metric q (ix.node i).vector).toBits

def neighborsAt (ix : VectorIndex) (i level : Nat) : List Nat := (ix.node i).neighbors.getD level []

/-- SplitMix64. -/
def nextU64 (ix : VectorIndex) : UInt64 × VectorIndex :=
  let rng := ix.rng + 0x9E3779B97F4A7C15
  let z := (rng ^^^ (rng >>> 30)) * 0xBF58476D1CE4E5B9
  let z := (z ^^^ (z >>> 27)) * 0x94D049BB133111EB
  (z ^^^ (z >>> 31), { ix with rng := rng })

/-- Geometric layer assignment, capped at 16. -/
def randomLevel (ix : VectorIndex) : Nat × VectorIndex :=
  let (z, ix) := ix.nextU64
  let u := (z >>> 11).toFloat / (9007199254740992 : Float)
  let u := if u < 1e-12 then 1e-12 else u
  let ml := 1.0 / (Float.ofNat (max ix.definition.params.m 2)).log
  (min (-(u.log) * ml).floor.toUInt64.toNat 16, ix)

/-! ### Layer search -/

/-- The three collections of the layer search: what was seen, the frontier
(nearest first) and the kept results (nearest first, so the farthest is last). -/
structure SearchState where
  visited : List Nat
  candidates : List Scored
  result : List Scored

def farthest (result : List Scored) : Float32 :=
  match result.getLast? with
  | some s => Float32.ofBits s.dist
  | none => 1 / 0

/-- One neighbour of the popped candidate. -/
def visit (ix : VectorIndex) (q : List UInt32) (ef : Nat) (st : SearchState) (nb : Nat) : SearchState :=
  if nb ∈ st.visited then st
  else
    let d := ix.dist q nb
    let st := { st with visited := nb :: st.visited }
    if Float32.ofBits d < farthest st.result || st.result.length < ef then
      let s : Scored := ⟨d, nb⟩
      let result := insertScored s st.result
      { st with
        candidates := insertScored s st.candidates
        result := if result.length > ef then result.dropLast else result }
    else st

/-- The best-first loop. Each round pops a candidate that was visited when it
was pushed, so one round a node suffices as fuel. -/
def searchLoop (ix : VectorIndex) (q : List UInt32) (ef level : Nat) : Nat → SearchState → SearchState
  | 0, st => st
  | fuel + 1, st =>
    match st.candidates with
    | [] => st
    | c :: rest =>
      let st := { st with candidates := rest }
      if Float32.ofBits c.dist > farthest st.result && ef ≤ st.result.length then st
      else ix.searchLoop q ef level fuel ((ix.neighborsAt c.idx level).foldl (ix.visit q ef) st)

def searchLayer (ix : VectorIndex) (q : List UInt32) (entry ef level : Nat) : List Scored :=
  let start : Scored := ⟨ix.dist q entry, entry⟩
  (ix.searchLoop q ef level (ix.nodes.length + 1) ⟨[entry], [start], [start]⟩).result

/-- Greedy descent through the layers `l, l-1, …, stop+1`. -/
def descend (ix : VectorIndex) (q : List UInt32) (stop : Nat) : Nat → Nat → Nat
  | 0, ep => ep
  | l + 1, ep =>
    if l + 1 > stop then
      let ep := match ix.searchLayer q ep 1 (l + 1) with
        | best :: _ => best.idx
        | [] => ep
      ix.descend q stop l ep
    else ep

/-! ### Insertion -/

def connect (ix : VectorIndex) (a b lvl : Nat) : VectorIndex :=
  if a = b then ix
  else ix.modifyNode a fun n =>
    let nbrs := n.neighbors ++ List.replicate (lvl + 1 - n.neighbors.length) []
    { n with neighbors := nbrs.modify lvl fun l => if b ∈ l then l else l ++ [b] }

/-- Caps a node's degree at one layer, keeping its nearest links. -/
def prune (ix : VectorIndex) (a lvl m : Nat) : VectorIndex :=
  let l := ix.neighborsAt a lvl
  if l.length ≤ m then ix
  else
    let scored := l.foldl (fun acc nb => insertScored ⟨ix.dist (ix.node a).vector nb, nb⟩ acc) []
    ix.modifyNode a fun n =>
      { n with neighbors := n.neighbors.modify lvl fun _ => (scored.take m).map (·.idx) }

/-- Connects the new node in layer `lvl`, then in every layer below. -/
def linkLayers (q : List UInt32) (idx : Nat) : Nat → VectorIndex → Nat → VectorIndex
  | lvl, ix, ep =>
    let found := ix.searchLayer q ep ix.definition.params.efConstruction lvl
    let m := if lvl = 0 then ix.definition.params.m * 2 else ix.definition.params.m
    let ix := (found.take m).foldl (fun ix s =>
      (((ix.connect idx s.idx lvl).connect s.idx idx lvl).prune s.idx lvl m)) ix
    let ep := match found with
      | best :: _ => best.idx
      | [] => ep
    match lvl with
    | 0 => ix
    | l + 1 => linkLayers q idx l ix ep

def linkNewNode (ix : VectorIndex) (idx entry level : Nat) : VectorIndex :=
  let q := (ix.node idx).vector
  let ep := ix.descend q level ix.maxLevel entry
  linkLayers q idx (min level ix.maxLevel) ix ep

/-- Adds a vector; idempotent on a vid already present. -/
def insert (ix : VectorIndex) (vid : Nat) (vector : List UInt32) : VectorIndex :=
  if (ix.byVid.lookup vid).isSome then ix
  else
    let (level, ix) := ix.randomLevel
    let idx := ix.nodes.length
    let ix := { ix with
      nodes := ix.nodes ++ [Node.mk vid vector (List.replicate (level + 1) []) false false]
      byVid := ix.byVid.insert vid idx }
    match ix.entry with
    | none => { ix with entry := some idx, maxLevel := level }
    | some entry =>
      let ix := ix.linkNewNode idx entry level
      if level > ix.maxLevel then { ix with maxLevel := level, entry := some idx } else ix

/-- The `k` nearest vectors to `query`, nearest first, rolled-back nodes
skipped. `efSearch` overrides the index's search width. -/
def search (ix : VectorIndex) (query : List UInt32) (k : Nat) (efSearch : Option Nat) :
    List (Nat × UInt32) :=
  match ix.entry with
  | none => []
  | some entry =>
    if k = 0 then []
    else
      let ef := max (efSearch.getD ix.definition.params.efSearch) k
      let ep := ix.descend query 0 ix.maxLevel entry
      let found := (ix.searchLayer query ep ef 0).filter fun s => !(ix.node s.idx).removed
      (found.take k).map fun s => ((ix.node s.idx).vid, s.dist)

end VectorIndex

end Twill
