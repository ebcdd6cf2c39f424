/-
What the operations of the vector index do to its nodes.

Linking and pruning rewrite adjacency lists and nothing else (`Relinked`), so an
insertion adds one node, a removal tombstones one, and a mark leaves the live
entries as they are. The graph stays closed: every ordinal it holds is one of a
node (`Linked`), so a search reads no node that is not there.
-/
import Twill.Vector

namespace Twill

/-- A node without its links. -/
def Node.bare (n : Node) : Node := { n with neighbors := [] }

namespace VectorIndex

variable {ix ix' : VectorIndex} {vid : Nat} {v : List UInt32}

/-- What the index answers for: the version ids and vectors of the nodes not rolled back. -/
def live (ix : VectorIndex) : List (Nat × List UInt32) :=
  (ix.nodes.filter fun n => !n.removed).map fun n => (n.vid, n.vector)

/-- The vid map leads exactly to the live nodes. -/
def Keyed (ix : VectorIndex) : Prop := ∀ vid i,
  ix.byVid.lookup vid = some i ↔ ∃ n, ix.nodes[i]? = some n ∧ n.removed = false ∧ n.vid = vid

/-- Every ordinal the graph holds is one of a node. -/
structure Linked (ix : VectorIndex) : Prop where
  entry : ∀ e, ix.entry = some e → e < ix.nodes.length
  links : ∀ n ∈ ix.nodes, ∀ l ∈ n.neighbors, ∀ i ∈ l, i < ix.nodes.length

theorem Keyed.new (d : IndexDef) : (VectorIndex.new d).Keyed := by simp [Keyed, VectorIndex.new]

theorem Linked.new (d : IndexDef) : (VectorIndex.new d).Linked := by constructor <;> simp [VectorIndex.new]

@[simp] theorem live_new (d : IndexDef) : (VectorIndex.new d).live = [] := rfl

theorem mem_live : (vid, v) ∈ ix.live ↔ ∃ n ∈ ix.nodes, n.removed = false ∧ n.vid = vid ∧ n.vector = v := by
  simp [live, and_assoc]

theorem Keyed.isSome_iff (h : ix.Keyed) : (ix.byVid.lookup vid).isSome ↔ ∃ v, (vid, v) ∈ ix.live := by
  rw [Option.isSome_iff_exists]
  constructor
  · rintro ⟨i, hi⟩
    obtain ⟨n, hn, hlive, hvid⟩ := (h vid i).1 hi
    exact ⟨n.vector, mem_live.2 ⟨n, List.mem_of_getElem? hn, hlive, hvid, rfl⟩⟩
  · rintro ⟨v, hv⟩
    obtain ⟨n, hn, hlive, hvid, -⟩ := mem_live.1 hv
    obtain ⟨i, hi⟩ := List.mem_iff_getElem?.1 hn
    exact ⟨i, (h vid i).2 ⟨n, hi, hlive, hvid⟩⟩

/-- A vid has one live node. -/
theorem Keyed.unique (h : ix.Keyed) {i j : Nat} {n m : Node} (hn : ix.nodes[i]? = some n) (hm : ix.nodes[j]? = some m)
    (hlive : n.removed = false) (hlive' : m.removed = false) (hvid : n.vid = m.vid) : i = j := by
  have hi := (h n.vid i).2 ⟨n, hn, hlive, rfl⟩
  have hj := (h n.vid j).2 ⟨m, hm, hlive', hvid.symm⟩
  exact Option.some.inj (hi.symm.trans hj)

/-! ## Updating one node -/

theorem nodes_modifyNode (i : Nat) (f : Node → Node) : (ix.modifyNode i f).nodes = ix.nodes.modify i f := rfl

theorem node_of_getElem? {i : Nat} {n : Node} (h : ix.nodes[i]? = some n) : ix.node i = n := by
  simp [node, List.getD, h]

/-- The live entries read nothing a mark changes. -/
theorem live_congr (h : ix'.nodes.map (fun n => (n.removed, n.vid, n.vector)) =
    ix.nodes.map fun n => (n.removed, n.vid, n.vector)) : ix'.live = ix.live := by
  have heq : ∀ nodes : List Node, ((nodes.filter fun n => !n.removed).map fun n => (n.vid, n.vector)) =
      ((nodes.map fun n => (n.removed, n.vid, n.vector)).filter fun p => !p.1).map fun p => p.2 := by
    intro nodes
    induction nodes with
    | nil => rfl
    | cons n nodes ih => cases hr : n.removed <;> simp [hr, ih]
  rw [live, live, heq, heq, h]

theorem Keyed.congr (h : ix.Keyed) (hvids : ix'.byVid = ix.byVid)
    (hnodes : ix'.nodes.map (fun n => (n.removed, n.vid)) = ix.nodes.map fun n => (n.removed, n.vid)) : ix'.Keyed := by
  intro vid i
  have hat := congrArg (fun l => l[i]?) hnodes
  simp only [List.getElem?_map] at hat
  rw [hvids, h vid i]
  constructor
  · rintro ⟨n, hn, hlive, hvid⟩
    rw [hn, Option.map_some, Option.map_eq_some_iff] at hat
    obtain ⟨n', hn', heq⟩ := hat
    obtain ⟨hr, hv⟩ := Prod.mk.inj heq
    exact ⟨n', hn', hr.trans hlive, hv.trans hvid⟩
  · rintro ⟨n, hn, hlive, hvid⟩
    rw [hn, Option.map_some, eq_comm, Option.map_eq_some_iff] at hat
    obtain ⟨n', hn', heq⟩ := hat
    obtain ⟨hr, hv⟩ := Prod.mk.inj heq
    exact ⟨n', hn', hr.trans hlive, hv.trans hvid⟩

theorem map_modify_eq {α β : Type} {f : α → α} {g : α → β} (h : ∀ a, g (f a) = g a) :
    ∀ (l : List α) (i : Nat), (l.modify i f).map g = l.map g
  | [], i => by simp
  | a :: l, 0 => by simp [h]
  | a :: l, i + 1 => by simp [map_modify_eq h l i]

theorem Linked.modifyNode (h : ix.Linked) {i : Nat} {f : Node → Node}
    (hf : ∀ n ∈ ix.nodes, ∀ l ∈ (f n).neighbors, ∀ j ∈ l, j < ix.nodes.length) : (ix.modifyNode i f).Linked := by
  have hlen : (ix.modifyNode i f).nodes.length = ix.nodes.length := List.length_modify ..
  refine ⟨fun e he => hlen ▸ h.entry e he, fun n hn l hl j hj => hlen ▸ ?_⟩
  obtain ⟨k, hk⟩ := List.mem_iff_getElem?.1 hn
  rw [nodes_modifyNode, List.getElem?_modify] at hk
  obtain ⟨n', hn', rfl⟩ := Option.map_eq_some_iff.1 hk
  split at hl
  · exact hf n' (List.mem_of_getElem? hn') l hl j hj
  · exact h.links n' (List.mem_of_getElem? hn') l hl j hj

/-! ## Marks and tombstones -/

theorem markDead_definition (ix : VectorIndex) (vid : Nat) : (ix.markDead vid).definition = ix.definition := by
  unfold markDead
  split
  · split <;> rfl
  · rfl

theorem markDead_floor (ix : VectorIndex) (vid : Nat) : (ix.markDead vid).rebuildFloor = ix.rebuildFloor := by
  unfold markDead
  split
  · split <;> rfl
  · rfl

theorem markDead_nodes (ix : VectorIndex) (vid : Nat) :
    (ix.markDead vid).nodes.map (fun n => (n.removed, n.vid, n.vector)) =
      ix.nodes.map fun n => (n.removed, n.vid, n.vector) := by
  unfold markDead
  split
  · split
    · rfl
    · next i _ _ =>
      exact map_modify_eq (f := fun n => { n with dead := true }) (g := fun n => (n.removed, n.vid, n.vector))
        (fun _ => rfl) ix.nodes i
  · rfl

theorem live_markDead (ix : VectorIndex) (vid : Nat) : (ix.markDead vid).live = ix.live :=
  live_congr (markDead_nodes ix vid)

theorem Keyed.markDead (h : ix.Keyed) (vid : Nat) : (ix.markDead vid).Keyed := by
  refine h.congr ?_ ?_
  · unfold VectorIndex.markDead
    split
    · split <;> rfl
    · rfl
  · have := congrArg (List.map fun p : Bool × Nat × List UInt32 => (p.1, p.2.1)) (markDead_nodes ix vid)
    simpa [Function.comp_def] using this

theorem Linked.markDead (h : ix.Linked) (vid : Nat) : (ix.markDead vid).Linked := by
  unfold VectorIndex.markDead
  split
  · split
    · exact h
    · next i _ _ =>
      have := h.modifyNode (i := i) (f := fun n => { n with dead := true }) fun n hn l hl => h.links n hn l hl
      exact ⟨this.entry, this.links⟩
  · exact h

theorem remove_definition (ix : VectorIndex) (vid : Nat) : (ix.remove vid).definition = ix.definition := by
  unfold remove
  split <;> rfl

theorem remove_floor (ix : VectorIndex) (vid : Nat) : (ix.remove vid).rebuildFloor = ix.rebuildFloor := by
  unfold remove
  split <;> rfl

theorem Linked.remove (h : ix.Linked) (vid : Nat) : (ix.remove vid).Linked := by
  unfold VectorIndex.remove
  split
  · next i _ =>
    have := h.modifyNode (i := i) (f := fun n => { n with removed := true }) fun n hn l hl => h.links n hn l hl
    exact ⟨this.entry, this.links⟩
  · exact h

theorem remove_of_none (h : ix.byVid.lookup vid = none) : ix.remove vid = ix := by
  simp only [remove, h]

theorem remove_of_some {i : Nat} (h : ix.byVid.lookup vid = some i) :
    (ix.remove vid).nodes = ix.nodes.modify i (fun n => { n with removed := true }) ∧
      (ix.remove vid).byVid = ix.byVid.erase vid := by
  simp only [remove, h]
  exact ⟨rfl, trivial⟩

theorem Keyed.remove (h : ix.Keyed) (vid : Nat) : (ix.remove vid).Keyed := by
  cases hvid : ix.byVid.lookup vid with
  | none => rwa [remove_of_none hvid]
  | some i =>
    obtain ⟨hnodes, hmap⟩ := remove_of_some hvid
    obtain ⟨n, hn, hlive, hnvid⟩ := (h vid i).1 hvid
    intro w j
    rw [hnodes, hmap, List.getElem?_modify]
    by_cases hw : w = vid
    · subst hw
      rw [AList.lookup_erase]
      refine ⟨fun hnone => (nomatch hnone), ?_⟩
      rintro ⟨m, hm, hmlive, hmvid⟩
      obtain ⟨m', hm', rfl⟩ := Option.map_eq_some_iff.1 hm
      by_cases hij : i = j
      · simp [hij] at hmlive
      · rw [if_neg hij] at hmlive hmvid
        exact absurd (h.unique hn hm' hlive hmlive (hnvid.trans hmvid.symm)) hij
    · rw [AList.lookup_erase_ne hw, h w j]
      constructor
      · rintro ⟨m, hm, hmlive, hmvid⟩
        have hij : i ≠ j := by
          rintro rfl
          obtain rfl := Option.some.inj (hn.symm.trans hm)
          exact hw (hmvid.symm.trans hnvid)
        exact ⟨m, by simp [hm, hij], hmlive, hmvid⟩
      · rintro ⟨m, hm, hmlive, hmvid⟩
        obtain ⟨m', hm', rfl⟩ := Option.map_eq_some_iff.1 hm
        by_cases hij : i = j
        · simp [hij] at hmlive
        · rw [if_neg hij] at hmlive hmvid
          exact ⟨m', hm', hmlive, hmvid⟩

/-- A removal takes the one live entry of the vid. -/
theorem live_remove (h : ix.Keyed) (vid : Nat) : (ix.remove vid).live = ix.live.filter fun p => p.1 != vid := by
  cases hvid : ix.byVid.lookup vid with
  | none =>
    rw [remove_of_none hvid, eq_comm, List.filter_eq_self]
    rintro ⟨w, v⟩ hmem
    have hne : w ≠ vid := by
      rintro rfl
      have := h.isSome_iff.2 ⟨v, hmem⟩
      simp [hvid] at this
    simpa using hne
  | some i =>
    obtain ⟨n, hn, hlive, hnvid⟩ := (h vid i).1 hvid
    obtain ⟨hnodes, -⟩ := remove_of_some hvid
    obtain ⟨hi, rfl⟩ := List.getElem?_eq_some_iff.1 hn
    have hsplit : ix.nodes = ix.nodes.take i ++ ix.nodes[i] :: ix.nodes.drop (i + 1) := by simp
    have hother : ∀ j m, ix.nodes[j]? = some m → j ≠ i → m.removed = false → m.vid ≠ vid := by
      intro j m hm hne hmlive hmvid
      exact hne (h.unique hm hn hmlive hlive (hmvid.trans hnvid.symm))
    have hkeep : ∀ l : List Node, (∀ m ∈ l, m.removed = false → m.vid ≠ vid) →
        ((l.filter fun n => !n.removed).map fun n => (n.vid, n.vector)).filter (fun p => p.1 != vid) =
          (l.filter fun n => !n.removed).map fun n => (n.vid, n.vector) := by
      intro l hl
      rw [List.filter_eq_self]
      intro p hp
      obtain ⟨m, hm, rfl⟩ := List.mem_map.1 hp
      have hm := List.mem_filter.1 hm
      simpa using hl m hm.1 (by simpa using hm.2)
    have hbefore : ∀ m ∈ ix.nodes.take i, m.removed = false → m.vid ≠ vid := by
      intro m hm
      obtain ⟨j, hj⟩ := List.mem_iff_getElem?.1 hm
      rw [List.getElem?_take] at hj
      split_ifs at hj with hlt
      exact hother j m hj (by omega)
    have hafter : ∀ m ∈ ix.nodes.drop (i + 1), m.removed = false → m.vid ≠ vid := by
      intro m hm
      obtain ⟨j, hj⟩ := List.mem_iff_getElem?.1 hm
      rw [List.getElem?_drop] at hj
      exact hother _ m hj (by omega)
    have hmod : (ix.remove vid).nodes = ix.nodes.take i ++ { ix.nodes[i] with removed := true } :: ix.nodes.drop (i + 1) := by
      rw [hnodes, List.modify_eq_take_cons_drop hi]
    rw [live, live, hmod]
    conv_rhs => rw [hsplit]
    simp only [List.filter_append, List.filter_cons, hlive, Bool.not_false, Bool.not_true, Bool.false_eq_true, if_true,
      if_false, List.map_append, List.map_cons, hkeep _ hbefore, hkeep _ hafter, hnvid, bne_self_eq_false]

/-- Removing several vids. -/
theorem live_removeAll (h : ix.Keyed) (vids : List Nat) :
    (vids.foldl remove ix).live = ix.live.filter fun p => !vids.contains p.1 := by
  induction vids generalizing ix with
  | nil => simp
  | cons vid vids ih =>
    rw [List.foldl_cons, ih (h.remove vid), live_remove h, List.filter_filter]
    refine List.filter_congr fun p _ => ?_
    simp only [List.contains_cons, Bool.not_or, bne, Bool.and_comm]

/-! ## Insertion -/

/-- Two indexes that differ in their links at most. -/
structure Relinked (ix ix' : VectorIndex) : Prop where
  nodes : ix'.nodes.map Node.bare = ix.nodes.map Node.bare
  byVid : ix'.byVid = ix.byVid
  definition : ix'.definition = ix.definition
  floor : ix'.rebuildFloor = ix.rebuildFloor
  entry : ix'.entry = ix.entry

theorem Relinked.refl : Relinked ix ix := ⟨rfl, rfl, rfl, rfl, rfl⟩

theorem Relinked.trans {ix'' : VectorIndex} (h : Relinked ix ix') (h' : Relinked ix' ix'') : Relinked ix ix'' :=
  ⟨h'.nodes.trans h.nodes, h'.byVid.trans h.byVid, h'.definition.trans h.definition, h'.floor.trans h.floor,
    h'.entry.trans h.entry⟩

theorem Relinked.length (h : Relinked ix ix') : ix'.nodes.length = ix.nodes.length := by
  simpa using congrArg List.length h.nodes

theorem Relinked.live (h : Relinked ix ix') : ix'.live = ix.live := by
  refine live_congr ?_
  have := congrArg (List.map fun n : Node => (n.removed, n.vid, n.vector)) h.nodes
  simpa [Function.comp_def, Node.bare] using this

theorem Relinked.keyed (h : Relinked ix ix') (hix : ix.Keyed) : ix'.Keyed := by
  refine hix.congr h.byVid ?_
  have := congrArg (List.map fun n : Node => (n.removed, n.vid)) h.nodes
  simpa [Function.comp_def, Node.bare] using this

theorem relinked_modifyNode {f : Node → Node} (hf : ∀ n, (f n).bare = n.bare) (i : Nat) :
    Relinked ix (ix.modifyNode i f) := ⟨map_modify_eq hf _ _, rfl, rfl, rfl, rfl⟩

theorem relinked_connect (a b lvl : Nat) : Relinked ix (ix.connect a b lvl) := by
  unfold connect
  split
  · exact .refl
  · refine relinked_modifyNode (fun _ => ?_) a
    rfl

theorem relinked_prune (a lvl m : Nat) : Relinked ix (ix.prune a lvl m) := by
  unfold prune
  dsimp only
  split
  · exact .refl
  · refine relinked_modifyNode (fun _ => ?_) a
    rfl

theorem Linked.connect (h : ix.Linked) {a b : Nat} (hb : b < ix.nodes.length) (lvl : Nat) :
    (ix.connect a b lvl).Linked := by
  unfold VectorIndex.connect
  split
  · exact h
  · refine h.modifyNode fun n hn l hl j hj => ?_
    have hpadded : ∀ l ∈ n.neighbors ++ List.replicate (lvl + 1 - n.neighbors.length) [], ∀ j ∈ l,
        j < ix.nodes.length := by
      intro l hl j hj
      rcases List.mem_append.1 hl with hl | hl
      · exact h.links n hn l hl j hj
      · simp [List.eq_of_mem_replicate hl] at hj
    obtain ⟨k, hk⟩ := List.mem_iff_getElem?.1 hl
    rw [List.getElem?_modify] at hk
    obtain ⟨l', hl', rfl⟩ := Option.map_eq_some_iff.1 hk
    have hold := hpadded l' (List.mem_of_getElem? hl')
    split at hj
    · split at hj
      · exact hold j hj
      · rcases List.mem_append.1 hj with hj | hj
        · exact hold j hj
        · rwa [List.mem_singleton.1 hj]
    · exact hold j hj

theorem mem_insertScored {s x : Scored} : ∀ {l : List Scored}, x ∈ insertScored s l → x = s ∨ x ∈ l
  | [], h => .inl (List.mem_singleton.1 h)
  | t :: l, h => by
    unfold insertScored at h
    split at h
    · rcases List.mem_cons.1 h with rfl | h
      · exact .inr List.mem_cons_self
      · exact (mem_insertScored h).imp_right (List.mem_cons_of_mem _)
    · exact List.mem_cons.1 h

theorem Linked.neighborsAt (h : ix.Linked) {i level j : Nat} (hj : j ∈ ix.neighborsAt i level) : j < ix.nodes.length := by
  unfold VectorIndex.neighborsAt at hj
  cases hn : ix.nodes[i]? with
  | none => simp [node, List.getD, hn] at hj
  | some n =>
    rw [node_of_getElem? hn, List.getD] at hj
    cases hl : n.neighbors[level]? with
    | none => simp [hl] at hj
    | some l =>
      rw [hl] at hj
      exact h.links n (List.mem_of_getElem? hn) l (List.mem_of_getElem? hl) j hj

theorem Linked.prune (h : ix.Linked) (a lvl m : Nat) : (ix.prune a lvl m).Linked := by
  unfold VectorIndex.prune
  dsimp only
  split
  · exact h
  · refine h.modifyNode fun n hn l hl j hj => ?_
    obtain ⟨k, hk⟩ := List.mem_iff_getElem?.1 hl
    rw [List.getElem?_modify] at hk
    obtain ⟨l', hl', rfl⟩ := Option.map_eq_some_iff.1 hk
    split at hj
    · obtain ⟨s, hs, rfl⟩ := List.mem_map.1 hj
      have hscored : ∀ (l : List Nat) (acc : List Scored), (∀ j ∈ l, j < ix.nodes.length) →
          (∀ s ∈ acc, s.idx < ix.nodes.length) →
          ∀ s ∈ l.foldl (fun acc nb => insertScored ⟨ix.dist (ix.node a).vector nb, nb⟩ acc) acc,
            s.idx < ix.nodes.length := by
        intro l
        induction l with
        | nil => exact fun acc _ hacc => hacc
        | cons nb l ih =>
          intro acc hl hacc
          refine ih _ (fun j hj => hl j (List.mem_cons_of_mem _ hj)) fun s hs => ?_
          rcases mem_insertScored hs with rfl | hs
          · exact hl nb List.mem_cons_self
          · exact hacc s hs
      exact hscored _ [] (fun j hj => h.neighborsAt hj) (by simp) s (List.mem_of_mem_take hs)
    · exact h.links n hn l' (List.mem_of_getElem? hl') j hj

/-! ### Layer search -/

/-- A search has come across ordinals of nodes only. -/
def SearchState.Within (n : Nat) (st : SearchState) : Prop :=
  (∀ s ∈ st.candidates, s.idx < n) ∧ ∀ s ∈ st.result, s.idx < n

theorem within_visit {n : Nat} {q : List UInt32} {ef nb : Nat} {st : SearchState} (h : st.Within n) (hnb : nb < n) :
    (ix.visit q ef st nb).Within n := by
  unfold visit
  dsimp only
  split
  · exact h
  · split
    · refine ⟨fun s hs => ?_, fun s hs => ?_⟩
      · rcases mem_insertScored hs with rfl | hs
        · exact hnb
        · exact h.1 s hs
      · have hs : s ∈ insertScored ⟨ix.dist q nb, nb⟩ st.result := by
          split at hs
          · exact List.mem_of_mem_dropLast hs
          · exact hs
        rcases mem_insertScored hs with rfl | hs
        · exact hnb
        · exact h.2 s hs
    · exact h

theorem within_searchLoop (h : ix.Linked) {q : List UInt32} {ef level : Nat} : ∀ {fuel : Nat} {st : SearchState},
    st.Within ix.nodes.length → (ix.searchLoop q ef level fuel st).Within ix.nodes.length
  | 0, _, hst => hst
  | fuel + 1, st, hst => by
    unfold searchLoop
    split
    · exact hst
    · next c rest hcand =>
      have hrest : SearchState.Within ix.nodes.length { st with candidates := rest } :=
        ⟨fun s hs => hst.1 s (by rw [hcand]; exact List.mem_cons_of_mem _ hs), hst.2⟩
      dsimp only
      split
      · exact hrest
      · refine within_searchLoop h ?_
        have hfold : ∀ (l : List Nat) (st : SearchState), (∀ j ∈ l, j < ix.nodes.length) → st.Within ix.nodes.length →
            (l.foldl (ix.visit q ef) st).Within ix.nodes.length := by
          intro l
          induction l with
          | nil => exact fun _ _ hst => hst
          | cons nb l ih =>
            exact fun st hl hst =>
              ih _ (fun j hj => hl j (List.mem_cons_of_mem _ hj)) (within_visit hst (hl nb List.mem_cons_self))
        exact hfold _ _ (fun j hj => h.neighborsAt hj) hrest

theorem searchLayer_lt (h : ix.Linked) {q : List UInt32} {entry ef level : Nat} (hentry : entry < ix.nodes.length) :
    ∀ s ∈ ix.searchLayer q entry ef level, s.idx < ix.nodes.length := by
  refine (within_searchLoop h ⟨?_, ?_⟩).2 <;>
  · intro s hs
    rwa [List.mem_singleton.1 hs]

theorem descend_lt (h : ix.Linked) {q : List UInt32} {stop : Nat} : ∀ {l ep : Nat}, ep < ix.nodes.length →
    ix.descend q stop l ep < ix.nodes.length
  | 0, _, hep => hep
  | l + 1, ep, hep => by
    unfold descend
    split
    · refine descend_lt h ?_
      split
      · next best _ hbest => exact searchLayer_lt h hep best (by rw [hbest]; exact List.mem_cons_self)
      · exact hep
    · exact hep

/-! ### The new node -/

/-- Linking the new node with its neighbours in one layer, both ways. -/
theorem linkNeighbours_spec {idx lvl m : Nat} : ∀ (found : List Scored) {ix : VectorIndex}, ix.Linked →
    idx < ix.nodes.length → (∀ s ∈ found, s.idx < ix.nodes.length) →
    Relinked ix (found.foldl (fun ix s => ((ix.connect idx s.idx lvl).connect s.idx idx lvl).prune s.idx lvl m) ix) ∧
      (found.foldl (fun ix s => ((ix.connect idx s.idx lvl).connect s.idx idx lvl).prune s.idx lvl m) ix).Linked
  | [], _, h, _, _ => ⟨.refl, h⟩
  | s :: found, ix, h, hidx, hfound => by
    have hout : Relinked ix (ix.connect idx s.idx lvl) := relinked_connect idx s.idx lvl
    have hback := hout.trans (relinked_connect s.idx idx lvl)
    have hone := hback.trans (relinked_prune s.idx lvl m)
    have hlinked : (((ix.connect idx s.idx lvl).connect s.idx idx lvl).prune s.idx lvl m).Linked := by
      refine ((h.connect (hfound s List.mem_cons_self) lvl).connect ?_ lvl).prune s.idx lvl m
      rwa [hout.length]
    obtain ⟨hrest, hrestLinked⟩ := linkNeighbours_spec found hlinked (hone.length ▸ hidx)
      fun t ht => hone.length ▸ hfound t (List.mem_cons_of_mem _ ht)
    exact ⟨hone.trans hrest, hrestLinked⟩

/-- One layer: the new node is linked, and the next layer is entered at a node. -/
theorem linkOneLayer_spec {q : List UInt32} {idx : Nat} (lvl m : Nat) {ix : VectorIndex} {ep : Nat} (h : ix.Linked)
    (hidx : idx < ix.nodes.length) (hep : ep < ix.nodes.length) :
    let found := ix.searchLayer q ep ix.definition.params.efConstruction lvl
    let ix' := (found.take m).foldl
      (fun ix s => ((ix.connect idx s.idx lvl).connect s.idx idx lvl).prune s.idx lvl m) ix
    (Relinked ix ix' ∧ ix'.Linked) ∧ (match found with
      | best :: _ => best.idx
      | [] => ep) < ix.nodes.length := by
  intro found ix'
  have hfound : ∀ s ∈ found, s.idx < ix.nodes.length := searchLayer_lt h hep
  refine ⟨linkNeighbours_spec _ h hidx fun s hs => hfound s (List.mem_of_mem_take hs), ?_⟩
  cases hbest : found with
  | nil => exact hep
  | cons best rest => exact hfound best (by rw [hbest]; exact List.mem_cons_self)

theorem linkLayers_spec {q : List UInt32} {idx : Nat} : ∀ (lvl : Nat) {ix : VectorIndex} {ep : Nat}, ix.Linked →
    idx < ix.nodes.length → ep < ix.nodes.length →
    Relinked ix (linkLayers q idx lvl ix ep) ∧ (linkLayers q idx lvl ix ep).Linked := by
  intro lvl
  induction lvl with
  | zero =>
    intro ix ep h hidx hep
    rw [linkLayers]
    exact (linkOneLayer_spec 0 _ h hidx hep).1
  | succ l ih =>
    intro ix ep h hidx hep
    rw [linkLayers]
    obtain ⟨⟨hre, hlinked⟩, hep'⟩ := linkOneLayer_spec (l + 1) ix.definition.params.m h hidx hep
    obtain ⟨hrest, hrestLinked⟩ := ih hlinked (hre.length ▸ hidx) (hre.length ▸ hep')
    exact ⟨hre.trans hrest, hrestLinked⟩

theorem linkNewNode_spec {idx entry l : Nat} (h : ix.Linked) (hidx : idx < ix.nodes.length)
    (hentry : entry < ix.nodes.length) :
    Relinked ix (ix.linkNewNode idx entry l) ∧ (ix.linkNewNode idx entry l).Linked :=
  linkLayers_spec _ h hidx (descend_lt h hentry)

/-- The index with the new node in place, before it is linked. -/
def addNode (ix : VectorIndex) (vid : Nat) (vector : List UInt32) (level : Nat) : VectorIndex :=
  { ix with
    nodes := ix.nodes ++ [⟨vid, vector, List.replicate (level + 1) [], false, false⟩]
    byVid := ix.byVid.insert vid ix.nodes.length }

theorem Linked.addNode (h : ix.Linked) (vid : Nat) (v : List UInt32) (level : Nat) : (ix.addNode vid v level).Linked := by
  have hlen : (ix.addNode vid v level).nodes.length = ix.nodes.length + 1 := by simp [VectorIndex.addNode]
  refine ⟨fun e he => ?_, fun n hn l hl i hi => ?_⟩
  · have := h.entry e he
    omega
  · rcases List.mem_append.1 hn with hn | hn
    · have := h.links n hn l hl i hi
      omega
    · obtain rfl := List.mem_singleton.1 hn
      simp [List.eq_of_mem_replicate hl] at hi

theorem Keyed.addNode (h : ix.Keyed) (hvid : ix.byVid.lookup vid = none) (v : List UInt32) (level : Nat) :
    (ix.addNode vid v level).Keyed := by
  intro w i
  show (ix.byVid.insert vid ix.nodes.length).lookup w = some i ↔ ∃ n, (ix.nodes ++ [_])[i]? = some n ∧ _
  by_cases hw : w = vid
  · subst hw
    rw [AList.lookup_insert]
    constructor
    · intro heq
      obtain rfl := Option.some.inj heq
      exact ⟨_, List.getElem?_concat_length, rfl, rfl⟩
    · rintro ⟨n, hn, hlive, hnvid⟩
      by_cases hi : i < ix.nodes.length
      · rw [List.getElem?_append_left hi] at hn
        have := (h w i).2 ⟨n, hn, hlive, hnvid⟩
        simp [hvid] at this
      · have hlt := (List.getElem?_eq_some_iff.1 hn).1
        rw [List.length_append, List.length_singleton] at hlt
        have : i = ix.nodes.length := by omega
        rw [this]
  · rw [AList.lookup_insert_ne hw, h w i]
    constructor
    · rintro ⟨n, hn, hlive, hnvid⟩
      have hi := (List.getElem?_eq_some_iff.1 hn).1
      exact ⟨n, by rwa [List.getElem?_append_left hi], hlive, hnvid⟩
    · rintro ⟨n, hn, hlive, hnvid⟩
      by_cases hi : i < ix.nodes.length
      · rw [List.getElem?_append_left hi] at hn
        exact ⟨n, hn, hlive, hnvid⟩
      · rw [List.getElem?_append_right (by omega)] at hn
        obtain rfl := List.mem_singleton.1 (List.mem_of_getElem? hn)
        exact absurd hnvid.symm hw

theorem live_addNode (vid : Nat) (v : List UInt32) (level : Nat) : (ix.addNode vid v level).live = ix.live ++ [(vid, v)] := by
  simp [live, addNode]

/-- The index holds one more live entry. -/
structure Extends (ix : VectorIndex) (vid : Nat) (v : List UInt32) (ix' : VectorIndex) : Prop where
  keyed : ix'.Keyed
  linked : ix'.Linked
  live : ix'.live = ix.live ++ [(vid, v)]
  definition : ix'.definition = ix.definition
  floor : ix'.rebuildFloor = ix.rebuildFloor

theorem Extends.addNode (hk : ix.Keyed) (hl : ix.Linked) (hvid : ix.byVid.lookup vid = none) (v : List UInt32)
    (level : Nat) : Extends ix vid v (ix.addNode vid v level) :=
  ⟨hk.addNode hvid v level, hl.addNode vid v level, live_addNode vid v level, rfl, rfl⟩

theorem Extends.relinked (h : Extends ix vid v ix') {ix'' : VectorIndex} (hre : Relinked ix' ix'') (hl : ix''.Linked) :
    Extends ix vid v ix'' :=
  ⟨hre.keyed h.keyed, hl, hre.live.trans h.live, hre.definition.trans h.definition, hre.floor.trans h.floor⟩

/-- The entry point moves to a node. -/
theorem Extends.withEntry (h : Extends ix vid v ix') {e : Nat} (he : e < ix'.nodes.length) (level : Nat) :
    Extends ix vid v { ix' with entry := some e, maxLevel := level } :=
  ⟨h.keyed, ⟨fun _ hentry => Option.some.inj hentry ▸ he, h.linked.links⟩, h.live, h.definition, h.floor⟩

/-- Drawing a level moves the generator only. -/
theorem randomLevel_snd (ix : VectorIndex) : ∃ rng, ix.randomLevel.2 = { ix with rng := rng } := ⟨ix.nextU64.2.rng, rfl⟩

/-- The index with the new node in place and linked, at a level. -/
def place (ix : VectorIndex) (vid : Nat) (v : List UInt32) (level : Nat) : VectorIndex :=
  match ix.entry with
  | none => { ix.addNode vid v level with entry := some ix.nodes.length, maxLevel := level }
  | some entry =>
    let linked := (ix.addNode vid v level).linkNewNode ix.nodes.length entry level
    if level > linked.maxLevel then { linked with maxLevel := level, entry := some ix.nodes.length } else linked

theorem insert_eq (h : ix.byVid.lookup vid = none) (v : List UInt32) :
    ix.insert vid v = ix.randomLevel.2.place vid v ix.randomLevel.1 := by
  have hnot : ¬ (ix.byVid.lookup vid).isSome = true := by simp [h]
  unfold insert
  rw [if_neg hnot]
  generalize ix.randomLevel = drawn
  obtain ⟨level, ix₁⟩ := drawn
  rfl

theorem Extends.place (hk : ix.Keyed) (hl : ix.Linked) (hvid : ix.byVid.lookup vid = none) (v : List UInt32)
    (level : Nat) : Extends ix vid v (ix.place vid v level) := by
  have hstart := Extends.addNode hk hl hvid v level
  have hidx : ix.nodes.length < (ix.addNode vid v level).nodes.length := by simp [VectorIndex.addNode]
  unfold VectorIndex.place
  cases hentry : ix.entry with
  | none => exact hstart.withEntry hidx level
  | some entry =>
    obtain ⟨hre, hlinked⟩ := linkNewNode_spec (l := level) hstart.linked hidx ((hl.entry entry hentry).trans hidx)
    have hext := hstart.relinked hre hlinked
    have hlt : ix.nodes.length < ((ix.addNode vid v level).linkNewNode ix.nodes.length entry level).nodes.length := by
      rwa [hre.length]
    dsimp only
    generalize (ix.addNode vid v level).linkNewNode ix.nodes.length entry level = linked at hext hlt ⊢
    split
    · exact hext.withEntry hlt level
    · exact hext

/-- A vid that is not there gets one live entry, the last. -/
theorem insert_of_none (hk : ix.Keyed) (hl : ix.Linked) (hvid : ix.byVid.lookup vid = none) (v : List UInt32) :
    Extends ix vid v (ix.insert vid v) := by
  obtain ⟨rng, hsnd⟩ := randomLevel_snd ix
  rw [insert_eq hvid, hsnd]
  have hk' : ({ ix with rng := rng } : VectorIndex).Keyed := hk
  have h := Extends.place hk' ⟨hl.entry, hl.links⟩ hvid v ix.randomLevel.1
  exact ⟨h.keyed, h.linked, h.live, h.definition, h.floor⟩

theorem insert_of_some (h : (ix.byVid.lookup vid).isSome) (v : List UInt32) : ix.insert vid v = ix := by
  simp [insert, h]

/-- A mark after the insertion. -/
theorem Extends.markDead (h : Extends ix vid v ix') (w : Nat) : Extends ix vid v (ix'.markDead w) :=
  ⟨h.keyed.markDead w, h.linked.markDead w, (live_markDead ix' w).trans h.live,
    (markDead_definition ix' w).trans h.definition, (markDead_floor ix' w).trans h.floor⟩

/-- The index holds the entries of a list besides. -/
structure Grown (ix : VectorIndex) (entries : List (Nat × List UInt32)) (ix' : VectorIndex) : Prop where
  keyed : ix'.Keyed
  linked : ix'.Linked
  live : ix'.live = ix.live ++ entries
  definition : ix'.definition = ix.definition
  floor : ix'.rebuildFloor = ix.rebuildFloor

/-- A loop that inserts a vector for some elements of a list, whose vids are distinct
and not there yet. -/
theorem grown_foldl {α : Type} {f : VectorIndex → α → VectorIndex} {k : α → Nat} {g : α → Option (List UInt32)}
    {d : IndexDef} (hskip : ∀ ix a, ix.definition = d → g a = none → f ix a = ix)
    (hinsert : ∀ ix a v, ix.definition = d → g a = some v → ix.Keyed → ix.Linked → ix.byVid.lookup (k a) = none →
      Extends ix (k a) v (f ix a)) :
    ∀ {l : List α} {ix : VectorIndex}, ix.definition = d → ix.Keyed → ix.Linked → (l.map k).Nodup →
      (∀ a ∈ l, ∀ v, (k a, v) ∉ ix.live) →
      Grown ix (l.filterMap fun a => (g a).map fun v => (k a, v)) (l.foldl f ix)
  | [], _, _, hk, hl, _, _ => ⟨hk, hl, by simp, rfl, rfl⟩
  | a :: l, ix, hd, hk, hl, hnodup, hfresh => by
    obtain ⟨hnotin, hnodup⟩ := List.nodup_cons.1 hnodup
    cases hg : g a with
    | none =>
      have hrest := grown_foldl hskip hinsert hd hk hl hnodup fun b hb => hfresh b (List.mem_cons_of_mem _ hb)
      simpa [hskip ix a hd hg, hg] using hrest
    | some v =>
      have hnone : ix.byVid.lookup (k a) = none := by
        rw [← Option.not_isSome_iff_eq_none, hk.isSome_iff]
        rintro ⟨w, hw⟩
        exact hfresh a List.mem_cons_self w hw
      have hone := hinsert ix a v hd hg hk hl hnone
      have hrest := grown_foldl hskip hinsert (hone.definition.trans hd) hone.keyed hone.linked hnodup fun b hb w hw => by
        rw [hone.live] at hw
        rcases List.mem_append.1 hw with hw | hw
        · exact hfresh b (List.mem_cons_of_mem _ hb) w hw
        · have heq := (Prod.mk.inj (List.mem_singleton.1 hw)).1
          exact hnotin (heq ▸ List.mem_map_of_mem hb)
      refine ⟨hrest.keyed, hrest.linked, ?_, hrest.definition.trans hone.definition, hrest.floor.trans hone.floor⟩
      rw [List.foldl_cons, hrest.live, hone.live]
      simp [hg]

/-! ## What a search returns -/

/-- Every version a search returns is a live entry. -/
theorem search_live (h : ix.Linked) {query : List UInt32} {k : Nat} {efSearch : Option Nat} {p : Nat × UInt32}
    (hp : p ∈ ix.search query k efSearch) : ∃ v, (p.1, v) ∈ ix.live := by
  unfold search at hp
  cases hentry : ix.entry with
  | none => simp [hentry] at hp
  | some entry =>
    simp only [hentry] at hp
    split_ifs at hp with hk
    · cases hp
    · obtain ⟨s, hs, rfl⟩ := List.mem_map.1 hp
      obtain ⟨hs, hlive⟩ := List.mem_filter.1 (List.mem_of_mem_take hs)
      have hlt := searchLayer_lt h (descend_lt h (h.entry entry hentry)) s hs
      have hnode : ix.nodes[s.idx]? = some ix.nodes[s.idx] := List.getElem?_eq_getElem hlt
      rw [node_of_getElem? hnode] at hlive ⊢
      exact ⟨ix.nodes[s.idx].vector, mem_live.2 ⟨_, List.getElem_mem hlt, by simpa using hlive, rfl, rfl⟩⟩

end VectorIndex

end Twill
