/-
The shape of the HNSW graph: what insertions, marks and removals keep of it,
in any order, and what a search makes of it.

`Wired` is about single lists: no ordinal twice, never the owner's, and only
nodes that reach up to the list's layer. Linking a new node keeps it because
the layer search stays among such nodes (`searchLayer_all`), and none of them is
the new one (`Fresh`). The degree bounds are kept beside it: the new node
takes at most the bound of neighbours, and a neighbour is pruned back at once.
-/
import Twill.VectorNodes

namespace Twill.VectorIndex

variable {ix ix' : VectorIndex}

/-! ## Lists and layers -/

/-- How many layers a node reaches. -/
def layers (ix : VectorIndex) (i : ℕ) : ℕ := (ix.node i).neighbors.length

/-- The degree bound of a layer. -/
def degreeBound (ix : VectorIndex) (lvl : ℕ) : ℕ :=
  if lvl = 0 then ix.definition.params.m * 2 else ix.definition.params.m

structure Wired (ix : VectorIndex) : Prop where
  nodup : ∀ i l, (ix.neighborsAt i l).Nodup
  irrefl : ∀ i l, i ∉ ix.neighborsAt i l
  target : ∀ i l, ∀ j ∈ ix.neighborsAt i l, j < ix.nodes.length ∧ l < ix.layers j

theorem node_modifyNode (a i : ℕ) (f : Node → Node) :
    (ix.modifyNode a f).node i = if a = i ∧ i < ix.nodes.length then f (ix.node i) else ix.node i := by
  unfold node modifyNode
  simp only [List.getD_eq_getElem?_getD, List.getElem?_modify]
  by_cases hi : i < ix.nodes.length
  · rw [List.getElem?_eq_getElem hi]
    by_cases ha : a = i <;> simp [ha, hi]
  · rw [List.getElem?_eq_none (Nat.le_of_not_lt hi)]
    simp [hi]

theorem neighborsAt_connect {a b lvl : ℕ} (hab : a ≠ b) (ha : a < ix.nodes.length) (i l : ℕ) :
    (ix.connect a b lvl).neighborsAt i l =
      if i = a ∧ l = lvl then
        if b ∈ ix.neighborsAt a lvl then ix.neighborsAt a lvl else ix.neighborsAt a lvl ++ [b]
      else ix.neighborsAt i l := by
  have hpad : ∀ (ls : List (List ℕ)) (k : ℕ), (ls ++ List.replicate k []).getD l [] = ls.getD l [] := by
    intro ls k
    simp only [List.getD_eq_getElem?_getD, List.getElem?_append, List.getElem?_replicate]
    by_cases hl : l < ls.length
    · rw [if_pos hl]
    · rw [if_neg hl, List.getElem?_eq_none (Nat.le_of_not_lt hl)]
      split <;> rfl
  unfold connect neighborsAt
  rw [if_neg hab, node_modifyNode]
  by_cases hi : a = i
  · subst hi
    rw [if_pos ⟨rfl, ha⟩]
    by_cases hl : l = lvl
    · subst hl
      have hlt : l < ((ix.node a).neighbors ++ List.replicate (l + 1 - (ix.node a).neighbors.length) []).length := by
        simp only [List.length_append, List.length_replicate]
        omega
      have hpad := hpad (ix.node a).neighbors (l + 1 - (ix.node a).neighbors.length)
      rw [if_pos ⟨rfl, rfl⟩]
      simp only [List.getD_eq_getElem?_getD, List.getElem?_modify_eq] at hpad ⊢
      rw [List.getElem?_eq_getElem hlt] at hpad ⊢
      simp only [Option.getD_some] at hpad ⊢
      rw [hpad]
      rfl
    · rw [if_neg (fun h => hl h.2)]
      have hpad := hpad (ix.node a).neighbors (lvl + 1 - (ix.node a).neighbors.length)
      simp only [List.getD_eq_getElem?_getD, List.getElem?_modify_ne _ _ (Ne.symm hl)] at hpad ⊢
      exact hpad
  · rw [if_neg (fun h => hi h.1), if_neg (fun h => hi h.1.symm)]

theorem layers_connect {a b lvl : ℕ} (hlvl : lvl < ix.layers a) (i : ℕ) : (ix.connect a b lvl).layers i = ix.layers i := by
  unfold connect
  split
  · rfl
  · unfold layers
    rw [node_modifyNode]
    split
    · rename_i h
      obtain ⟨rfl, -⟩ := h
      unfold layers at hlvl
      simp only [List.length_modify, List.length_append, List.length_replicate]
      omega
    · rfl

theorem length_connect (a b lvl : ℕ) : (ix.connect a b lvl).nodes.length = ix.nodes.length :=
  (relinked_connect a b lvl).length

theorem length_prune (a lvl m : ℕ) : (ix.prune a lvl m).nodes.length = ix.nodes.length :=
  (relinked_prune a lvl m).length

/-- What a list is pruned to. -/
def nearest (ix : VectorIndex) (a lvl m : ℕ) : List ℕ :=
  (((ix.neighborsAt a lvl).foldl (fun acc nb => insertScored ⟨ix.dist (ix.node a).vector nb, nb⟩ acc) []).take m).map
    (·.idx)

theorem insertScored_perm (s : Scored) : ∀ l : List Scored, (insertScored s l).Perm (s :: l)
  | [] => .refl _
  | t :: l => by
    unfold insertScored
    split
    · exact ((insertScored_perm s l).cons t).trans (.swap s t l)
    · exact .refl _

theorem foldl_insertScored_perm (f : ℕ → Scored) : ∀ (l : List ℕ) (acc : List Scored),
    (l.foldl (fun acc nb => insertScored (f nb) acc) acc).Perm (l.map f ++ acc)
  | [], _ => .refl _
  | nb :: l, acc => by
    refine (foldl_insertScored_perm f l _).trans ?_
    refine ((insertScored_perm (f nb) acc).append_left (l.map f)).trans ?_
    exact List.perm_middle

/-- Pruning keeps a part of the list. -/
theorem nearest_subperm (ix : VectorIndex) (a lvl m : ℕ) : (ix.nearest a lvl m).Subperm (ix.neighborsAt a lvl) := by
  have hperm := foldl_insertScored_perm (fun nb => ⟨ix.dist (ix.node a).vector nb, nb⟩) (ix.neighborsAt a lvl) []
  have hidx := hperm.map (·.idx)
  rw [List.append_nil, List.map_map, show ((·.idx) ∘ fun nb => (⟨ix.dist (ix.node a).vector nb, nb⟩ : Scored)) = id
    from rfl, List.map_id] at hidx
  exact ((List.take_sublist m _).map _).subperm.trans hidx.subperm

theorem length_nearest_le (ix : VectorIndex) (a lvl m : ℕ) : (ix.nearest a lvl m).length ≤ m := by
  unfold nearest
  rw [List.length_map]
  exact List.length_take_le m _

theorem neighborsAt_prune {a lvl m : ℕ} (ha : a < ix.nodes.length) (i l : ℕ) :
    (ix.prune a lvl m).neighborsAt i l =
      if i = a ∧ l = lvl ∧ m < (ix.neighborsAt a lvl).length then ix.nearest a lvl m else ix.neighborsAt i l := by
  unfold prune
  dsimp only
  by_cases hm : (ix.neighborsAt a lvl).length ≤ m
  · rw [if_pos hm, if_neg (fun h => Nat.not_lt.2 hm h.2.2)]
  · rw [if_neg hm]
    by_cases hi : a = i
    · subst hi
      have hnode := @node_modifyNode ix a a fun n => { n with neighbors := n.neighbors.modify lvl fun _ => ix.nearest a lvl m }
      rw [if_pos ⟨rfl, ha⟩] at hnode
      change ((VectorIndex.node _ a).neighbors).getD l [] = _
      unfold nearest at hnode ⊢
      rw [hnode]
      by_cases hl : l = lvl
      · subst hl
        rw [if_pos ⟨rfl, rfl, Nat.lt_of_not_le hm⟩]
        have hlt : l < (ix.node a).neighbors.length := by
          by_contra hge
          have hnil : ix.neighborsAt a l = [] := by
            unfold neighborsAt
            rw [List.getD_eq_default _ _ (Nat.le_of_not_lt hge)]
          rw [hnil] at hm
          exact hm (Nat.zero_le m)
        simp only [List.getD_eq_getElem?_getD, List.getElem?_modify_eq]
        rw [List.getElem?_eq_getElem hlt]
        rfl
      · rw [if_neg (fun h => hl h.2.1)]
        simp only [List.getD_eq_getElem?_getD, List.getElem?_modify_ne _ _ (Ne.symm hl)]
        rfl
    · rw [if_neg (fun h => hi h.1.symm)]
      unfold neighborsAt
      rw [node_modifyNode, if_neg (fun h => hi h.1)]

theorem layers_prune {a lvl m : ℕ} (i : ℕ) : (ix.prune a lvl m).layers i = ix.layers i := by
  unfold prune
  dsimp only
  split
  · rfl
  · unfold layers
    rw [node_modifyNode]
    split
    · exact List.length_modify _ _ _
    · rfl

/-! ## Linking two nodes -/

theorem Wired.connect (h : ix.Wired) {a b lvl : ℕ} (hab : a ≠ b) (ha : a < ix.nodes.length)
    (hb : b < ix.nodes.length) (hla : lvl < ix.layers a) (hlb : lvl < ix.layers b) : (ix.connect a b lvl).Wired := by
  refine ⟨fun i l => ?_, fun i l => ?_, fun i l j hj => ?_⟩
  · rw [neighborsAt_connect hab ha]
    split
    · split
      · exact h.nodup a lvl
      · rename_i hnot
        exact List.nodup_append.2 ⟨h.nodup a lvl, by simp, fun x hx y hy => by
          rw [List.mem_singleton.1 hy]
          exact fun hxb => hnot (hxb ▸ hx)⟩
    · exact h.nodup i l
  · rw [neighborsAt_connect hab ha]
    split
    · rename_i hil
      obtain ⟨rfl, rfl⟩ := hil
      split
      · exact h.irrefl _ _
      · simp only [List.mem_append, List.mem_singleton, not_or]
        exact ⟨h.irrefl _ _, hab⟩
    · exact h.irrefl i l
  · rw [length_connect, layers_connect hla]
    rw [neighborsAt_connect hab ha] at hj
    split at hj
    · rename_i hil
      obtain ⟨rfl, rfl⟩ := hil
      split at hj
      · exact h.target _ _ j hj
      · rcases List.mem_append.1 hj with hj | hj
        · exact h.target _ _ j hj
        · rw [List.mem_singleton.1 hj]
          exact ⟨hb, hlb⟩
    · exact h.target i l j hj

theorem Wired.prune (h : ix.Wired) {a lvl m : ℕ} (ha : a < ix.nodes.length) : (ix.prune a lvl m).Wired := by
  have hsub := nearest_subperm ix a lvl m
  refine ⟨fun i l => ?_, fun i l => ?_, fun i l j hj => ?_⟩
  · rw [neighborsAt_prune ha]
    split
    · obtain ⟨kept, hperm, hpart⟩ := hsub
      exact hperm.nodup_iff.1 ((h.nodup a lvl).sublist hpart)
    · exact h.nodup i l
  · rw [neighborsAt_prune ha]
    split
    · rename_i hil
      obtain ⟨rfl, rfl, -⟩ := hil
      exact fun hmem => h.irrefl _ _ (hsub.subset hmem)
    · exact h.irrefl i l
  · rw [length_prune, layers_prune]
    rw [neighborsAt_prune ha] at hj
    split at hj
    · rename_i hil
      obtain ⟨rfl, rfl, -⟩ := hil
      exact h.target _ _ j (hsub.subset hj)
    · exact h.target i l j hj

/-- Both links between the new node and one neighbour, and the neighbour's list pruned. -/
def linkBoth (idx lvl m : ℕ) (ix : VectorIndex) (s : Scored) : VectorIndex :=
  ((ix.connect idx s.idx lvl).connect s.idx idx lvl).prune s.idx lvl m

/-- Neither the top layer nor the count of marks is touched. -/
structure Kept (ix ix' : VectorIndex) : Prop where
  maxLevel : ix'.maxLevel = ix.maxLevel
  deadCount : ix'.deadCount = ix.deadCount

theorem Kept.trans {ix'' : VectorIndex} (h : Kept ix ix') (h' : Kept ix' ix'') : Kept ix ix'' :=
  ⟨h'.maxLevel.trans h.maxLevel, h'.deadCount.trans h.deadCount⟩

theorem Kept.connect (a b lvl : ℕ) : Kept ix (ix.connect a b lvl) := by
  unfold VectorIndex.connect
  split <;> exact ⟨rfl, rfl⟩

theorem Kept.prune (a lvl m : ℕ) : Kept ix (ix.prune a lvl m) := by
  unfold VectorIndex.prune
  dsimp only
  split <;> exact ⟨rfl, rfl⟩

/-- What linking the new node in one layer leaves of the lists: `k` is how many neighbours it takes. -/
structure Rewired (idx lvl m k : ℕ) (ix ix' : VectorIndex) : Prop where
  wired : ix'.Wired
  relinked : Relinked ix ix'
  kept : Kept ix ix'
  layers : ∀ i, ix'.layers i = ix.layers i
  other : ∀ i l, l ≠ lvl → ix'.neighborsAt i l = ix.neighborsAt i l
  degree : ∀ i, i ≠ idx → (ix.neighborsAt i lvl).length ≤ m → (ix'.neighborsAt i lvl).length ≤ m
  own : (ix'.neighborsAt idx lvl).length ≤ (ix.neighborsAt idx lvl).length + k

theorem length_neighborsAt_connect {a b lvl : ℕ} (hab : a ≠ b) (ha : a < ix.nodes.length) :
    ((ix.connect a b lvl).neighborsAt a lvl).length ≤ (ix.neighborsAt a lvl).length + 1 := by
  rw [neighborsAt_connect hab ha, if_pos ⟨rfl, rfl⟩]
  split
  · omega
  · simp

theorem Rewired.linkBoth (h : ix.Wired) {idx lvl m : ℕ} {s : Scored} (hidx : idx < ix.nodes.length)
    (hlvl : lvl < ix.layers idx) (hs : s.idx < ix.nodes.length) (hslvl : lvl < ix.layers s.idx) (hne : s.idx ≠ idx) :
    Rewired idx lvl m 1 ix (ix.linkBoth idx lvl m s) := by
  obtain ⟨out, hout⟩ : ∃ out, out = ix.connect idx s.idx lvl := ⟨_, rfl⟩
  obtain ⟨back, hback⟩ : ∃ back, back = out.connect s.idx idx lvl := ⟨_, rfl⟩
  have hlink : ix.linkBoth idx lvl m s = back.prune s.idx lvl m := by rw [hback, hout]; rfl
  have hlenOut : out.nodes.length = ix.nodes.length := by rw [hout, length_connect]
  have hlenBack : back.nodes.length = ix.nodes.length := by rw [hback, length_connect, hlenOut]
  have hlayersOut : ∀ i, out.layers i = ix.layers i := fun i => by rw [hout, layers_connect hlvl]
  have hlayersBack : ∀ i, back.layers i = ix.layers i := fun i => by
    rw [hback, layers_connect (by rwa [hlayersOut]), hlayersOut]
  have hwiredOut : out.Wired := hout ▸ h.connect (Ne.symm hne) hidx hs hlvl hslvl
  have hwiredBack : back.Wired := hback ▸ hwiredOut.connect hne (by omega) (by omega) (by rwa [hlayersOut])
    (by rwa [hlayersOut])
  have hlistsOut := fun i l => @neighborsAt_connect ix idx s.idx lvl (Ne.symm hne) hidx i l
  have hlistsBack := fun i l => @neighborsAt_connect out s.idx idx lvl hne (hlenOut ▸ hs) i l
  have hlists := fun i l => @neighborsAt_prune back s.idx lvl m (hlenBack ▸ hs) i l
  rw [← hout] at hlistsOut
  rw [← hback] at hlistsBack
  rw [hlink]
  refine ⟨hwiredBack.prune (hlenBack ▸ hs), ?_, ?_, fun i => ?_, fun i l hl => ?_, fun i hi hdeg => ?_, ?_⟩
  · rw [hback, hout]
    exact ((relinked_connect idx s.idx lvl).trans (relinked_connect s.idx idx lvl)).trans (relinked_prune s.idx lvl m)
  · rw [hback, hout]
    exact ((Kept.connect idx s.idx lvl).trans (.connect s.idx idx lvl)).trans (.prune s.idx lvl m)
  · rw [layers_prune, hlayersBack]
  · rw [hlists, if_neg (fun h => hl h.2.1), hlistsBack, if_neg (fun h => hl h.2), hlistsOut, if_neg (fun h => hl h.2)]
  · rw [hlists]
    split
    · exact length_nearest_le back s.idx lvl m
    · rename_i hsmall
      by_cases his : i = s.idx
      · subst his
        by_contra hlarge
        exact hsmall ⟨rfl, rfl, Nat.lt_of_not_le hlarge⟩
      · rw [hlistsBack, if_neg (fun h => his h.1), hlistsOut, if_neg (fun h => hi h.1)]
        exact hdeg
  · rw [hlists, if_neg (fun h => hne h.1.symm), hlistsBack, if_neg (fun h => hne h.1.symm), hout]
    exact length_neighborsAt_connect (Ne.symm hne) hidx

theorem Rewired.trans {idx lvl m k k' : ℕ} {ix'' : VectorIndex} (h : Rewired idx lvl m k ix ix')
    (h' : Rewired idx lvl m k' ix' ix'') : Rewired idx lvl m (k + k') ix ix'' where
  wired := h'.wired
  relinked := h.relinked.trans h'.relinked
  kept := h.kept.trans h'.kept
  layers i := (h'.layers i).trans (h.layers i)
  other i l hl := (h'.other i l hl).trans (h.other i l hl)
  degree i hi hdeg := h'.degree i hi (h.degree i hi hdeg)
  own := by
    have h₁ := h.own
    have h₂ := h'.own
    omega

/-- The loop over the neighbours found. -/
theorem Rewired.foldl {idx lvl m : ℕ} : ∀ (found : List Scored) {ix : VectorIndex}, ix.Wired → idx < ix.nodes.length →
    lvl < ix.layers idx → (∀ s ∈ found, s.idx < ix.nodes.length ∧ lvl < ix.layers s.idx ∧ s.idx ≠ idx) →
    Rewired idx lvl m found.length ix (found.foldl (VectorIndex.linkBoth idx lvl m) ix)
  | [], ix, h, _, _, _ => ⟨h, .refl, ⟨rfl, rfl⟩, fun _ => rfl, fun _ _ _ => rfl, fun _ _ hdeg => hdeg, Nat.le_refl _⟩
  | s :: found, ix, h, hidx, hlvl, hfound => by
    obtain ⟨hs, hslvl, hne⟩ := hfound s List.mem_cons_self
    have hone := Rewired.linkBoth (m := m) h hidx hlvl hs hslvl hne
    have hlen := hone.relinked.length
    have hrest := Rewired.foldl (m := m) found hone.wired (hlen ▸ hidx) (by rwa [hone.layers]) fun t ht => by
      rw [hlen, hone.layers]
      exact hfound t (List.mem_cons_of_mem _ ht)
    have htotal := hone.trans hrest
    rw [Nat.add_comm] at htotal
    exact htotal

/-! ## The layer search -/

/-- What a search has come across: nodes of a set `P`, each visited once. -/
structure SearchState.Tidy (P : ℕ → Prop) (n : ℕ) (st : SearchState) : Prop where
  nodup : st.visited.Nodup
  below : ∀ i ∈ st.visited, i < n
  candidates : ∀ s ∈ st.candidates, P s.idx
  result : ∀ s ∈ st.result, P s.idx ∧ s.idx ∈ st.visited
  once : (st.result.map (·.idx)).Nodup

/-- Rounds a search has left at most: a candidate for each, present or still to be found. -/
def SearchState.rounds (n : ℕ) (st : SearchState) : ℕ := st.candidates.length + (n - st.visited.length)

theorem SearchState.Tidy.visited_le {P : ℕ → Prop} {n : ℕ} {st : SearchState} (h : st.Tidy P n) :
    st.visited.length ≤ n := by
  have hsub : st.visited ⊆ List.range n := fun i hi => List.mem_range.2 (h.below i hi)
  have hle := (h.nodup.subperm hsub).length_le
  rwa [List.length_range] at hle

section Search

variable {P : ℕ → Prop} {n : ℕ} {q : List UInt32} {ef level : ℕ} {st : SearchState}

theorem SearchState.Tidy.visit (h : st.Tidy P n) {nb : ℕ} (hnb : P nb) (hlt : nb < n) :
    (ix.visit q ef st nb).Tidy P n ∧ (ix.visit q ef st nb).rounds n ≤ st.rounds n := by
  unfold VectorIndex.visit
  dsimp only
  by_cases hseen : nb ∈ st.visited
  · rw [if_pos hseen]
    exact ⟨h, Nat.le_refl _⟩
  · rw [if_neg hseen]
    have hnodup : (nb :: st.visited).Nodup := List.nodup_cons.2 ⟨hseen, h.nodup⟩
    have hbelow : ∀ i ∈ nb :: st.visited, i < n := by
      intro i hi
      rcases List.mem_cons.1 hi with rfl | hi
      · exact hlt
      · exact h.below i hi
    have hroom : st.visited.length + 1 ≤ n := by
      have hsub : nb :: st.visited ⊆ List.range n := fun i hi => List.mem_range.2 (hbelow i hi)
      have hle := (hnodup.subperm hsub).length_le
      rwa [List.length_range, List.length_cons] at hle
    split
    · obtain ⟨s, hs⟩ : ∃ s : Scored, s = ⟨ix.dist q nb, nb⟩ := ⟨_, rfl⟩
      have hsidx : s.idx = nb := by rw [hs]
      have hperm := insertScored_perm s st.result
      rw [← hs]
      have hresult : ∀ t ∈ insertScored s st.result, P t.idx ∧ t.idx ∈ nb :: st.visited := by
        intro t ht
        rcases List.mem_cons.1 (hperm.mem_iff.1 ht) with rfl | ht
        · exact ⟨hsidx ▸ hnb, hsidx ▸ List.mem_cons_self⟩
        · exact ⟨(h.result t ht).1, List.mem_cons_of_mem _ (h.result t ht).2⟩
      have honce : ((insertScored s st.result).map (·.idx)).Nodup := by
        rw [(hperm.map (·.idx)).nodup_iff, List.map_cons, List.nodup_cons]
        refine ⟨fun hmem => ?_, h.once⟩
        obtain ⟨t, ht, htidx⟩ := List.mem_map.1 hmem
        exact hseen (hsidx ▸ htidx ▸ (h.result t ht).2)
      refine ⟨⟨hnodup, hbelow, fun t ht => ?_, fun t ht => ?_, ?_⟩, ?_⟩
      · rcases mem_insertScored ht with rfl | ht
        · exact hsidx ▸ hnb
        · exact h.candidates t ht
      · dsimp only at ht
        split at ht
        · exact hresult t (List.mem_of_mem_dropLast ht)
        · exact hresult t ht
      · dsimp only
        split
        · exact honce.sublist ((List.dropLast_sublist _).map _)
        · exact honce
      · have hlen := (insertScored_perm s st.candidates).length_eq
        simp only [SearchState.rounds, List.length_cons] at hlen ⊢
        omega
    · refine ⟨⟨hnodup, hbelow, h.candidates, fun t ht => ?_, h.once⟩, ?_⟩
      · exact ⟨(h.result t ht).1, List.mem_cons_of_mem _ (h.result t ht).2⟩
      · simp only [SearchState.rounds, List.length_cons]
        omega

theorem SearchState.Tidy.foldl : ∀ (nbs : List ℕ) {st : SearchState}, st.Tidy P n → (∀ j ∈ nbs, P j ∧ j < n) →
    (nbs.foldl (ix.visit q ef) st).Tidy P n ∧ (nbs.foldl (ix.visit q ef) st).rounds n ≤ st.rounds n
  | [], _, h, _ => ⟨h, Nat.le_refl _⟩
  | nb :: nbs, st, h, hnbs => by
    obtain ⟨hP, hlt⟩ := hnbs nb List.mem_cons_self
    obtain ⟨hone, hle⟩ := h.visit (q := q) hP hlt
    obtain ⟨hrest, hle'⟩ := SearchState.Tidy.foldl nbs hone fun j hj => hnbs j (List.mem_cons_of_mem _ hj)
    exact ⟨hrest, hle'.trans hle⟩

/-- How a layer search ends, counted in no fuel: with no candidate left, or with one farther than
every result once there are enough of them. -/
inductive SearchEnds (ix : VectorIndex) (q : List UInt32) (ef level : ℕ) : SearchState → SearchState → Prop
  | exhausted {st : SearchState} : st.candidates = [] → SearchEnds ix q ef level st st
  | far {st : SearchState} {c : Scored} {rest : List Scored} : st.candidates = c :: rest →
      (Float32.ofBits c.dist > farthest st.result && ef ≤ st.result.length) = true →
      SearchEnds ix q ef level st { st with candidates := rest }
  | round {st st' : SearchState} {c : Scored} {rest : List Scored} : st.candidates = c :: rest →
      (Float32.ofBits c.dist > farthest st.result && ef ≤ st.result.length) = false →
      SearchEnds ix q ef level ((ix.neighborsAt c.idx level).foldl (ix.visit q ef) { st with candidates := rest }) st' →
      SearchEnds ix q ef level st st'

/-- A search among the nodes of `P`, with a round of fuel for each it has left, ends of itself. -/
theorem searchLoop_ends (hclosed : ∀ i, P i → ∀ j ∈ ix.neighborsAt i level, P j ∧ j < n) :
    ∀ (fuel : ℕ) {st : SearchState}, st.Tidy P n → st.rounds n ≤ fuel →
      SearchEnds ix q ef level st (ix.searchLoop q ef level fuel st) ∧ (ix.searchLoop q ef level fuel st).Tidy P n
  | 0, st, h, hfuel => by
    have hnone : st.candidates = [] := List.length_eq_zero_iff.1 (by unfold SearchState.rounds at hfuel; omega)
    rw [searchLoop]
    exact ⟨.exhausted hnone, h⟩
  | fuel + 1, st, h, hfuel => by
    rw [searchLoop]
    cases hcand : st.candidates with
    | nil => exact ⟨.exhausted hcand, h⟩
    | cons c rest =>
      have hrest : SearchState.Tidy P n { st with candidates := rest } :=
        ⟨h.nodup, h.below, fun s hs => h.candidates s (by rw [hcand]; exact List.mem_cons_of_mem _ hs), h.result, h.once⟩
      have hc : P c.idx := h.candidates c (by rw [hcand]; exact List.mem_cons_self)
      dsimp only
      by_cases hfar : (Float32.ofBits c.dist > farthest st.result && ef ≤ st.result.length) = true
      · rw [if_pos hfar]
        exact ⟨.far hcand hfar, hrest⟩
      · rw [if_neg hfar]
        obtain ⟨hvisit, hle⟩ := SearchState.Tidy.foldl (q := q) _ hrest (hclosed c.idx hc)
        have hrounds : SearchState.rounds n { st with candidates := rest } ≤ fuel := by
          simp only [SearchState.rounds, hcand, List.length_cons] at hfuel ⊢
          omega
        obtain ⟨hends, htidy⟩ := searchLoop_ends hclosed fuel hvisit (hle.trans hrounds)
        exact ⟨.round hcand (by simpa using hfar) hends, htidy⟩

/-- The start of a layer search at a node. -/
def searchStart (ix : VectorIndex) (q : List UInt32) (ep : ℕ) : SearchState :=
  ⟨[ep], [⟨ix.dist q ep, ep⟩], [⟨ix.dist q ep, ep⟩]⟩

theorem searchStart_tidy {ep : ℕ} (hep : P ep) (hlt : ep < n) : (ix.searchStart q ep).Tidy P n where
  nodup := List.nodup_singleton ep
  below i hi := List.mem_singleton.1 hi ▸ hlt
  candidates s hs := by rw [List.mem_singleton.1 hs]; exact hep
  result s hs := by rw [List.mem_singleton.1 hs]; exact ⟨hep, List.mem_cons_self⟩
  once := List.nodup_singleton ep

/-- The search of a layer, from one of its nodes: it ends, and returns nodes of the set once each. -/
theorem searchLayer_spec (hclosed : ∀ i, P i → ∀ j ∈ ix.neighborsAt i level, P j ∧ j < ix.nodes.length) {ep : ℕ}
    (hep : P ep) (hlt : ep < ix.nodes.length) :
    SearchEnds ix q ef level (ix.searchStart q ep)
        (ix.searchLoop q ef level (ix.nodes.length + 1) (ix.searchStart q ep)) ∧
      (∀ s ∈ ix.searchLayer q ep ef level, P s.idx) ∧ ((ix.searchLayer q ep ef level).map (·.idx)).Nodup := by
  obtain ⟨hends, htidy⟩ := searchLoop_ends (q := q) hclosed (ix.nodes.length + 1)
    (searchStart_tidy (q := q) hep hlt) (by
      simp only [SearchState.rounds, searchStart, List.length_singleton]
      omega)
  exact ⟨hends, fun s hs => (htidy.result s hs).1, htidy.once⟩

end Search

/-! ## The new node -/

/-- A node other than `idx` that reaches a layer. -/
structure Reaches (ix : VectorIndex) (idx lvl i : ℕ) : Prop where
  lt : i < ix.nodes.length
  layer : lvl < ix.layers i
  ne : i ≠ idx

theorem Reaches.closed (h : ix.Wired) {idx lvl : ℕ} (hfresh : ∀ i, idx ∉ ix.neighborsAt i lvl) :
    ∀ i, ix.Reaches idx lvl i → ∀ j ∈ ix.neighborsAt i lvl, ix.Reaches idx lvl j ∧ j < ix.nodes.length := by
  intro i _ j hj
  obtain ⟨hlt, hlvl⟩ := h.target i lvl j hj
  exact ⟨⟨hlt, hlvl, fun heq => hfresh i (heq ▸ hj)⟩, hlt⟩

theorem Reaches.mono {idx lvl lvl' i : ℕ} (h : ix.Reaches idx lvl i) (hle : lvl' ≤ lvl) : ix.Reaches idx lvl' i :=
  ⟨h.lt, Nat.lt_of_le_of_lt hle h.layer, h.ne⟩

/-- The nearest node found, or the start. -/
def bestOr (found : List Scored) (ep : ℕ) : ℕ :=
  match found with
  | best :: _ => best.idx
  | [] => ep

theorem Reaches.bestOr (h : ix.Wired) {idx lvl : ℕ} (ef : ℕ) (hfresh : ∀ i, idx ∉ ix.neighborsAt i lvl)
    {q : List UInt32} {ep : ℕ} (hep : ix.Reaches idx lvl ep) :
    ix.Reaches idx lvl (bestOr (ix.searchLayer q ep ef lvl) ep) := by
  have hfound : ∀ s ∈ ix.searchLayer q ep ef lvl, ix.Reaches idx lvl s.idx :=
    (searchLayer_spec (Reaches.closed h hfresh) hep hep.lt).2.1
  cases hbest : ix.searchLayer q ep ef lvl with
  | nil => exact hep
  | cons best rest => exact hfound best (by rw [hbest]; exact List.mem_cons_self)

/-- The descent ends at a node that reaches the layer to go on with. -/
theorem Reaches.descend (h : ix.Wired) {idx : ℕ} (stop : ℕ) (hfresh : ∀ i l, idx ∉ ix.neighborsAt i l) {q : List UInt32} :
    ∀ (l : ℕ) {ep : ℕ}, ix.Reaches idx l ep → ix.Reaches idx (min stop l) (ix.descend q stop l ep)
  | 0, ep, hep => hep.mono (Nat.min_le_right _ _)
  | l + 1, ep, hep => by
    rw [VectorIndex.descend]
    split
    · rename_i hgt
      have hbest := (Reaches.bestOr h 1 (hfresh · (l + 1)) (q := q) hep).mono (Nat.le_succ l)
      have hrest := Reaches.descend h stop hfresh (q := q) l hbest
      have hmin : min stop l = min stop (l + 1) := by omega
      rw [← hmin]
      exact hrest
    · exact hep.mono (Nat.min_le_right _ _)

/-- The new node in place below a layer: no list of these layers holds it, and its own are empty. -/
structure Fresh (ix : VectorIndex) (idx top : ℕ) : Prop where
  unlinked : ∀ i l, l ≤ top → idx ∉ ix.neighborsAt i l
  empty : ∀ l, l ≤ top → ix.neighborsAt idx l = []

def Bounded (ix : VectorIndex) : Prop := ∀ i l, (ix.neighborsAt i l).length ≤ ix.degreeBound l

theorem degreeBound_relinked (h : Relinked ix ix') (l : ℕ) : ix'.degreeBound l = ix.degreeBound l := by
  unfold degreeBound
  rw [h.definition]

/-- What linking leaves. -/
structure Settled (ix ix' : VectorIndex) : Prop where
  wired : ix'.Wired
  bounded : ix'.Bounded
  relinked : Relinked ix ix'
  kept : Kept ix ix'
  layers : ∀ i, ix'.layers i = ix.layers i

/-- One layer of the new node. -/
theorem linkLayer_spec (h : ix.Wired) (hbound : ix.Bounded) {idx lvl ef ep : ℕ} {q : List UInt32} (hfresh : ix.Fresh idx lvl)
    (hidx : idx < ix.nodes.length) (hlvl : lvl < ix.layers idx) (hep : ix.Reaches idx lvl ep) :
    let ix' := ((ix.searchLayer q ep ef lvl).take (ix.degreeBound lvl)).foldl
      (VectorIndex.linkBoth idx lvl (ix.degreeBound lvl)) ix
    Settled ix ix' ∧ ∀ i l, l ≠ lvl → ix'.neighborsAt i l = ix.neighborsAt i l := by
  have hfound : ∀ s ∈ ix.searchLayer q ep ef lvl, ix.Reaches idx lvl s.idx :=
    (searchLayer_spec (Reaches.closed h (hfresh.unlinked · lvl (Nat.le_refl _))) hep hep.lt).2.1
  have hstep := Rewired.foldl (m := ix.degreeBound lvl) ((ix.searchLayer q ep ef lvl).take (ix.degreeBound lvl)) h hidx hlvl
    fun s hs => by
      have hs := hfound s (List.mem_of_mem_take hs)
      exact ⟨hs.lt, hs.layer, hs.ne⟩
  intro ix'
  refine ⟨⟨hstep.wired, fun i l => ?_, hstep.relinked, hstep.kept, hstep.layers⟩, hstep.other⟩
  rw [degreeBound_relinked hstep.relinked]
  by_cases hl : l = lvl
  · subst hl
    by_cases hi : i = idx
    · subst hi
      have hown := hstep.own
      rw [hfresh.empty l (Nat.le_refl _), List.length_nil, Nat.zero_add] at hown
      exact hown.trans (List.length_take_le _ _)
    · exact hstep.degree i hi (hbound i l)
  · rw [hstep.other i l hl]
    exact hbound i l

theorem linkLayers_eq (q : List UInt32) (idx lvl : ℕ) (ix : VectorIndex) (ep : ℕ) :
    linkLayers q idx lvl ix ep =
      (let ix' := ((ix.searchLayer q ep ix.definition.params.efConstruction lvl).take (ix.degreeBound lvl)).foldl
        (VectorIndex.linkBoth idx lvl (ix.degreeBound lvl)) ix
      match lvl with
      | 0 => ix'
      | l + 1 => linkLayers q idx l ix' (bestOr (ix.searchLayer q ep ix.definition.params.efConstruction lvl) ep)) := by
  cases lvl with
  | zero =>
    rw [linkLayers]
    rfl
  | succ l =>
    rw [linkLayers]
    rfl

/-- Every layer of the new node, from one down. -/
theorem linkLayers_settled {q : List UInt32} {idx : ℕ} : ∀ (lvl : ℕ) {ix : VectorIndex} {ep : ℕ}, ix.Wired → ix.Bounded →
    ix.Fresh idx lvl → idx < ix.nodes.length → lvl < ix.layers idx → ix.Reaches idx lvl ep →
    Settled ix (linkLayers q idx lvl ix ep)
  | 0, ix, ep, h, hbound, hfresh, hidx, hlvl, hep => by
    rw [linkLayers_eq]
    exact (linkLayer_spec h hbound hfresh hidx hlvl hep).1
  | lvl + 1, ix, ep, h, hbound, hfresh, hidx, hlvl, hep => by
    rw [linkLayers_eq]
    obtain ⟨hone, hother⟩ := linkLayer_spec (q := q) h hbound hfresh hidx hlvl hep
    have hbest := (Reaches.bestOr h ix.definition.params.efConstruction
      (hfresh.unlinked · (lvl + 1) (Nat.le_refl _)) (q := q) hep).mono (Nat.le_succ lvl)
    dsimp only
    generalize ((ix.searchLayer q ep ix.definition.params.efConstruction (lvl + 1)).take (ix.degreeBound (lvl + 1))).foldl
      (VectorIndex.linkBoth idx (lvl + 1) (ix.degreeBound (lvl + 1))) ix = ix₁ at hone hother ⊢
    have hlen := hone.relinked.length
    have hfresh₁ : ix₁.Fresh idx lvl := by
      refine ⟨fun i l hl => ?_, fun l hl => ?_⟩
      · rw [hother i l (by omega)]
        exact hfresh.unlinked i l (by omega)
      · rw [hother idx l (by omega)]
        exact hfresh.empty l (by omega)
    have hrest := linkLayers_settled (q := q) lvl hone.wired hone.bounded hfresh₁ (hlen ▸ hidx)
      (by rw [hone.layers]; omega) ⟨hlen ▸ hbest.lt, by rw [hone.layers]; exact hbest.layer, hbest.ne⟩
    exact ⟨hrest.wired, hrest.bounded, hone.relinked.trans hrest.relinked, hone.kept.trans hrest.kept,
      fun i => (hrest.layers i).trans (hone.layers i)⟩

/-! ## The index -/

/-- Nodes that are head-deleted and still there. -/
def deadNodes (ix : VectorIndex) : ℕ := ix.nodes.countP fun n => !n.removed && n.dead

/-- What holds of an index after any operations. -/
structure WellFormed (ix : VectorIndex) : Prop where
  wired : ix.Wired
  bounded : ix.Bounded
  top : ∀ i, ix.layers i ≤ ix.maxLevel + 1
  entry : ∀ e, ix.entry = some e → e < ix.nodes.length ∧ ix.layers e = ix.maxLevel + 1
  noEntry : ix.entry = none → ix.nodes = []
  keyed : ix.Keyed
  dead : ix.deadCount = ix.deadNodes

theorem layers_of_ge {i : ℕ} (h : ix.nodes.length ≤ i) : ix.layers i = 0 := by
  simp [layers, node, h]

theorem WellFormed.new (d : IndexDef) : (VectorIndex.new d).WellFormed := by
  have hnone : ∀ i l, (VectorIndex.new d).neighborsAt i l = [] := fun i l => by
    simp [neighborsAt, node, VectorIndex.new]
  refine ⟨⟨fun i l => ?_, fun i l => ?_, fun i l j hj => ?_⟩, fun i l => ?_, fun i => ?_, fun e he => ?_, fun _ => rfl,
    Keyed.new d, rfl⟩
  · rw [hnone]
    exact List.nodup_nil
  · rw [hnone]
    exact List.not_mem_nil
  · rw [hnone] at hj
    cases hj
  · rw [hnone]
    exact Nat.zero_le _
  · rw [layers_of_ge (Nat.zero_le i)]
    exact Nat.zero_le _
  · cases he

/-! ### Marks and removals -/

section Flags

variable {f : Node → Node} {a : ℕ}

/-- A change to a node's flags leaves the graph. -/
theorem neighborsAt_flag (hf : ∀ n, (f n).neighbors = n.neighbors) (i l : ℕ) :
    (ix.modifyNode a f).neighborsAt i l = ix.neighborsAt i l := by
  unfold neighborsAt
  rw [node_modifyNode]
  split
  · rw [hf]
  · rfl

theorem layers_flag (hf : ∀ n, (f n).neighbors = n.neighbors) (i : ℕ) : (ix.modifyNode a f).layers i = ix.layers i := by
  unfold layers
  rw [node_modifyNode]
  split
  · rw [hf]
  · rfl

theorem countP_modify {p : Node → Bool} : ∀ {nodes : List Node} {a : ℕ} {n : Node}, nodes[a]? = some n →
    (nodes.modify a f).countP p + (if p n then 1 else 0) = nodes.countP p + (if p (f n) then 1 else 0)
  | m :: nodes, 0, n, h => by
    obtain rfl : m = n := by simpa using h
    simp only [List.modify_zero_cons, List.countP_cons]
    omega
  | m :: nodes, a + 1, n, h => by
    have ih := countP_modify (p := p) (a := a) (by simpa using h)
    simp only [List.modify_succ_cons, List.countP_cons]
    omega

/-- The graph of an index whose nodes differ in flags only, under another id map and count. -/
theorem WellFormed.flag (h : ix.WellFormed) (hf : ∀ n, (f n).neighbors = n.neighbors)
    (hix : ix' = { ix.modifyNode a f with byVid := ix'.byVid, deadCount := ix'.deadCount }) (hkeyed : ix'.Keyed)
    (hdead : ix'.deadCount = ix'.deadNodes) : ix'.WellFormed := by
  have hlists : ∀ i l, ix'.neighborsAt i l = ix.neighborsAt i l := by
    intro i l
    rw [hix]
    exact neighborsAt_flag hf i l
  have hlayers : ∀ i, ix'.layers i = ix.layers i := by
    intro i
    rw [hix]
    exact layers_flag hf i
  have hlen : ix'.nodes.length = ix.nodes.length := by
    rw [hix]
    exact List.length_modify _ _ _
  have hmax : ix'.maxLevel = ix.maxLevel := by rw [hix]; rfl
  have hentry : ix'.entry = ix.entry := by rw [hix]; rfl
  have hdef : ix'.definition = ix.definition := by rw [hix]; rfl
  refine ⟨⟨fun i l => ?_, fun i l => ?_, fun i l j hj => ?_⟩, fun i l => ?_, fun i => ?_, fun e he => ?_, fun he => ?_,
    hkeyed, hdead⟩
  · rw [hlists]
    exact h.wired.nodup i l
  · rw [hlists]
    exact h.wired.irrefl i l
  · rw [hlen, hlayers]
    rw [hlists] at hj
    exact h.wired.target i l j hj
  · have hb := h.bounded i l
    unfold degreeBound at hb ⊢
    rw [hlists, hdef]
    exact hb
  · rw [hlayers, hmax]
    exact h.top i
  · rw [hentry] at he
    rw [hlen, hlayers, hmax]
    exact h.entry e he
  · rw [hentry] at he
    exact List.length_eq_zero_iff.1 (by rw [hlen, h.noEntry he]; rfl)

end Flags

theorem WellFormed.markDead (h : ix.WellFormed) (vid : ℕ) : (ix.markDead vid).WellFormed := by
  have hkeyed := h.keyed.markDead vid
  unfold VectorIndex.markDead at hkeyed ⊢
  cases hvid : ix.byVid.lookup vid with
  | none => exact h
  | some i =>
    rw [hvid] at hkeyed
    dsimp only at hkeyed ⊢
    obtain ⟨n, hn, hlive, -⟩ := (h.keyed vid i).1 hvid
    have hnode := node_of_getElem? hn
    by_cases hdead : (ix.node i).dead = true
    · rw [if_pos hdead]
      exact h
    · rw [if_neg hdead] at hkeyed ⊢
      refine h.flag (f := fun n => { n with dead := true }) (a := i) (fun _ => rfl) rfl hkeyed ?_
      have hcount := countP_modify (f := fun n => { n with dead := true }) (p := fun n => !n.removed && n.dead) hn
      have hnot : n.dead = false := by simpa [hnode] using hdead
      simp only [hnot, hlive, Bool.not_false, Bool.and_false, Bool.and_self, if_true, Bool.false_eq_true, if_false] at hcount
      change ix.deadCount + 1 = (ix.nodes.modify i fun n => { n with dead := true }).countP _
      have hold := h.dead
      unfold deadNodes at hold
      omega

theorem WellFormed.remove (h : ix.WellFormed) (vid : ℕ) : (ix.remove vid).WellFormed := by
  have hkeyed := h.keyed.remove vid
  unfold VectorIndex.remove at hkeyed ⊢
  cases hvid : ix.byVid.lookup vid with
  | none => exact h
  | some i =>
    rw [hvid] at hkeyed
    dsimp only at hkeyed ⊢
    obtain ⟨n, hn, hlive, -⟩ := (h.keyed vid i).1 hvid
    have hnode := node_of_getElem? hn
    refine h.flag (f := fun n => { n with removed := true }) (a := i) (fun _ => rfl) rfl hkeyed ?_
    have hcount := countP_modify (f := fun n => { n with removed := true }) (p := fun n => !n.removed && n.dead) hn
    have hold := h.dead
    unfold deadNodes at hold
    rw [hnode]
    change (if n.dead = true then ix.deadCount - 1 else ix.deadCount) =
      (ix.nodes.modify i fun n => { n with removed := true }).countP _
    by_cases hdead : n.dead = true
    · simp only [hlive, hdead, Bool.not_false, Bool.and_self, if_true, Bool.not_true, Bool.false_and,
        Bool.false_eq_true, if_false] at hcount ⊢
      omega
    · have hnot : n.dead = false := by simpa using hdead
      simp only [hlive, hnot, Bool.not_false, Bool.and_false, Bool.false_eq_true, if_false] at hcount ⊢
      omega

/-! ### Insertion -/

theorem node_addNode (vid : ℕ) (v : List UInt32) (level i : ℕ) :
    (ix.addNode vid v level).node i =
      if i = ix.nodes.length then ⟨vid, v, List.replicate (level + 1) [], false, false⟩ else ix.node i := by
  unfold node addNode
  simp only [List.getD_eq_getElem?_getD]
  by_cases hi : i < ix.nodes.length
  · rw [List.getElem?_append_left hi, if_neg (by omega)]
  · by_cases heq : i = ix.nodes.length
    · rw [if_pos heq, heq, List.getElem?_concat_length]
      rfl
    · rw [if_neg heq, List.getElem?_eq_none (by simp; omega), List.getElem?_eq_none (by omega)]

theorem neighborsAt_addNode (vid : ℕ) (v : List UInt32) (level i l : ℕ) :
    (ix.addNode vid v level).neighborsAt i l = ix.neighborsAt i l := by
  unfold neighborsAt
  rw [node_addNode]
  split
  · rename_i heq
    have hold : (ix.node i).neighbors = [] := by simp [node, heq]
    rw [hold, List.getD_eq_getElem?_getD, List.getElem?_replicate]
    split <;> rfl
  · rfl

theorem layers_addNode (vid : ℕ) (v : List UInt32) (level i : ℕ) :
    (ix.addNode vid v level).layers i = if i = ix.nodes.length then level + 1 else ix.layers i := by
  unfold layers
  rw [node_addNode]
  split
  · exact List.length_replicate
  · rfl

theorem Wired.addNode (h : ix.Wired) (vid : ℕ) (v : List UInt32) (level : ℕ) : (ix.addNode vid v level).Wired := by
  refine ⟨fun i l => ?_, fun i l => ?_, fun i l j hj => ?_⟩
  · rw [neighborsAt_addNode]
    exact h.nodup i l
  · rw [neighborsAt_addNode]
    exact h.irrefl i l
  · rw [neighborsAt_addNode] at hj
    obtain ⟨hlt, hlvl⟩ := h.target i l j hj
    have hlen : (ix.addNode vid v level).nodes.length = ix.nodes.length + 1 := by simp [VectorIndex.addNode]
    rw [hlen, layers_addNode, if_neg (by omega)]
    exact ⟨by omega, hlvl⟩

/-- A node just added is fresh in every layer. -/
theorem Wired.fresh (h : ix.Wired) (vid : ℕ) (v : List UInt32) (level top : ℕ) :
    (ix.addNode vid v level).Fresh ix.nodes.length top := by
  refine ⟨fun i l _ hmem => ?_, fun l _ => ?_⟩
  · rw [neighborsAt_addNode] at hmem
    exact Nat.lt_irrefl _ (h.target i l _ hmem).1
  · rw [neighborsAt_addNode]
    simp [neighborsAt, node]

/-- Linking the node just added. -/
theorem linkNewNode_settled (h : ix.WellFormed) (vid : ℕ) (v : List UInt32) (level : ℕ) {entry : ℕ}
    (hentry : ix.entry = some entry) :
    Settled (ix.addNode vid v level) ((ix.addNode vid v level).linkNewNode ix.nodes.length entry level) := by
  obtain ⟨hlt, hlayers⟩ := h.entry entry hentry
  have hwired := h.wired.addNode vid v level
  have hlen : (ix.addNode vid v level).nodes.length = ix.nodes.length + 1 := by simp [VectorIndex.addNode]
  have hbound : (ix.addNode vid v level).Bounded := by
    intro i l
    rw [neighborsAt_addNode]
    exact h.bounded i l
  have hep : (ix.addNode vid v level).Reaches ix.nodes.length ix.maxLevel entry := by
    refine ⟨by omega, ?_, by omega⟩
    rw [layers_addNode, if_neg (by omega), hlayers]
    omega
  have hdescend := Reaches.descend hwired level
    (fun i l => (h.wired.fresh vid v level l).unlinked i l (Nat.le_refl l))
    (q := ((ix.addNode vid v level).node ix.nodes.length).vector) ix.maxLevel hep
  exact linkLayers_settled _ hwired hbound (h.wired.fresh vid v level _) (by omega)
    (by rw [layers_addNode, if_pos rfl]; omega) hdescend

theorem deadNodes_addNode (vid : ℕ) (v : List UInt32) (level : ℕ) :
    (ix.addNode vid v level).deadNodes = ix.deadNodes := by
  simp [deadNodes, VectorIndex.addNode]

theorem deadNodes_relinked (h : Relinked ix ix') : ix'.deadNodes = ix.deadNodes := by
  have hbare : ∀ ix : VectorIndex, ix.deadNodes = (ix.nodes.map Node.bare).countP fun n => !n.removed && n.dead := by
    intro ix
    rw [List.countP_map]
    rfl
  rw [hbare, hbare, h.nodes]

/-- An index with the same graph: the generator, the entry and the top layer may have moved. -/
theorem Wired.congr (h : ix.Wired) (hnodes : ix'.nodes = ix.nodes) : ix'.Wired := by
  have hlists : ∀ i l, ix'.neighborsAt i l = ix.neighborsAt i l := fun i l => by simp only [neighborsAt, node, hnodes]
  have hlayers : ∀ i, ix'.layers i = ix.layers i := fun i => by simp only [layers, node, hnodes]
  exact ⟨fun i l => hlists i l ▸ h.nodup i l, fun i l => hlists i l ▸ h.irrefl i l,
    fun i l j hj => by rw [hnodes, hlayers]; exact h.target i l j (hlists i l ▸ hj)⟩

theorem WellFormed.place (h : ix.WellFormed) {vid : ℕ} (hvid : ix.byVid.lookup vid = none) (v : List UInt32) (level : ℕ) :
    (ix.place vid v level).WellFormed := by
  have hlen : (ix.addNode vid v level).nodes.length = ix.nodes.length + 1 := by simp [VectorIndex.addNode]
  have hkeyed := h.keyed.addNode hvid v level
  unfold VectorIndex.place
  cases hentry : ix.entry with
  | none =>
    -- the first node of all
    have hempty := h.noEntry hentry
    have hzero : ix.nodes.length = 0 := by rw [hempty]; rfl
    refine ⟨(h.wired.addNode vid v level).congr rfl, fun i l => ?_, fun i => ?_, fun e he => ?_, (fun he => by cases he),
      hkeyed, ?_⟩
    · change ((ix.addNode vid v level).neighborsAt i l).length ≤ ix.degreeBound l
      rw [neighborsAt_addNode]
      exact h.bounded i l
    · change (ix.addNode vid v level).layers i ≤ level + 1
      rw [layers_addNode]
      split
      · exact Nat.le_refl _
      · rw [layers_of_ge (by omega)]
        exact Nat.zero_le _
    · obtain rfl := Option.some.inj he
      refine ⟨by change _ < (ix.addNode vid v level).nodes.length; omega, ?_⟩
      change (ix.addNode vid v level).layers ix.nodes.length = level + 1
      rw [layers_addNode, if_pos rfl]
    · exact h.dead.trans (deadNodes_addNode vid v level).symm
  | some entry =>
    have hset := linkNewNode_settled h vid v level hentry
    obtain ⟨hlt, hlayers⟩ := h.entry entry hentry
    dsimp only
    generalize (ix.addNode vid v level).linkNewNode ix.nodes.length entry level = linked at hset ⊢
    have hlinked : linked.nodes.length = ix.nodes.length + 1 := hset.relinked.length.trans hlen
    have hmax : linked.maxLevel = ix.maxLevel := hset.kept.maxLevel
    have hdead : linked.deadCount = linked.deadNodes := by
      rw [hset.kept.deadCount, deadNodes_relinked hset.relinked, deadNodes_addNode]
      exact h.dead
    have hreach : ∀ i, linked.layers i = if i = ix.nodes.length then level + 1 else ix.layers i := fun i => by
      rw [hset.layers, layers_addNode]
    split
    · rename_i hgt
      rw [hmax] at hgt
      refine ⟨hset.wired.congr rfl, hset.bounded, fun i => ?_, fun e he => ?_, (fun he => by cases he),
        hset.relinked.keyed hkeyed, hdead⟩
      · change linked.layers i ≤ level + 1
        have hold := h.top i
        rw [hreach]
        split <;> omega
      · obtain rfl := Option.some.inj he
        refine ⟨by change _ < linked.nodes.length; omega, ?_⟩
        change linked.layers ix.nodes.length = level + 1
        rw [hreach, if_pos rfl]
    · rename_i hle
      rw [hmax] at hle
      have hsame : linked.entry = some entry := hset.relinked.entry.trans hentry
      refine ⟨hset.wired, hset.bounded, fun i => ?_, fun e he => ?_, fun he => ?_, hset.relinked.keyed hkeyed, hdead⟩
      · have hold := h.top i
        rw [hreach, hmax]
        split <;> omega
      · rw [hsame] at he
        obtain rfl := Option.some.inj he
        rw [hreach, hmax, if_neg (by omega)]
        exact ⟨by omega, hlayers⟩
      · rw [hsame] at he
        cases he

theorem WellFormed.insert (h : ix.WellFormed) (vid : ℕ) (v : List UInt32) : (ix.insert vid v).WellFormed := by
  cases hvid : ix.byVid.lookup vid with
  | some i =>
    rw [insert_of_some (by rw [hvid]; rfl)]
    exact h
  | none =>
    obtain ⟨rng, hsnd⟩ := randomLevel_snd ix
    rw [insert_eq hvid, hsnd]
    have hdrawn : ({ ix with rng := rng } : VectorIndex).WellFormed :=
      ⟨h.wired.congr rfl, h.bounded, h.top, h.entry, h.noEntry, h.keyed, h.dead⟩
    exact hdrawn.place hvid v _

/-! ## Runs of operations -/

/-- The operations the store drives an index by. -/
inductive IndexOp where
  | insert (vid : ℕ) (vector : List UInt32)
  | markDead (vid : ℕ)
  | remove (vid : ℕ)

def IndexOp.apply (ix : VectorIndex) : IndexOp → VectorIndex
  | .insert vid vector => ix.insert vid vector
  | .markDead vid => ix.markDead vid
  | .remove vid => ix.remove vid

theorem WellFormed.apply (h : ix.WellFormed) (op : IndexOp) : (op.apply ix).WellFormed := by
  cases op with
  | insert vid v => exact h.insert vid v
  | markDead vid => exact h.markDead vid
  | remove vid => exact h.remove vid

theorem WellFormed.run (ops : List IndexOp) (h : ix.WellFormed) : (ops.foldl IndexOp.apply ix).WellFormed := by
  induction ops generalizing ix with
  | nil => exact h
  | cons op ops ih => exact ih (h.apply op)

/-! ## What a search returns -/

/-- At most `k` rows, none of them twice and none rolled back. -/
theorem WellFormed.search (h : ix.WellFormed) (query : List UInt32) (k : ℕ) (efSearch : Option ℕ) :
    (ix.search query k efSearch).length ≤ k ∧ ((ix.search query k efSearch).map (·.1)).Nodup ∧
      ∀ p ∈ ix.search query k efSearch, ∃ (i : ℕ) (n : Node), ix.nodes[i]? = some n ∧ n.removed = false ∧ n.vid = p.1 := by
  unfold VectorIndex.search
  cases hentry : ix.entry with
  | none => exact ⟨Nat.zero_le k, List.nodup_nil, by simp⟩
  | some entry =>
    dsimp only
    by_cases hk : k = 0
    · rw [if_pos hk]
      exact ⟨Nat.zero_le k, List.nodup_nil, by simp⟩
    · rw [if_neg hk]
      obtain ⟨hlt, hlayers⟩ := h.entry entry hentry
      -- no list holds the ordinal behind the last node
      have hout : ∀ i l, ix.nodes.length ∉ ix.neighborsAt i l := fun i l hmem =>
        Nat.lt_irrefl _ (h.wired.target i l _ hmem).1
      have hep := Reaches.descend h.wired 0 hout (q := query) ix.maxLevel
        ⟨hlt, by rw [hlayers]; exact Nat.lt_succ_self _, by omega⟩
      rw [Nat.zero_min] at hep
      obtain ⟨-, hfound, honce⟩ := searchLayer_spec (q := query)
        (Reaches.closed h.wired (hout · 0)) hep hep.lt
      generalize ix.searchLayer query (ix.descend query 0 ix.maxLevel entry)
        (max (efSearch.getD ix.definition.params.efSearch) k) 0 = found at hfound honce ⊢
      have hlive : ∀ s ∈ (found.filter fun s => !(ix.node s.idx).removed).take k,
          ix.nodes[s.idx]? = some (ix.node s.idx) ∧ (ix.node s.idx).removed = false := by
        intro s hs
        obtain ⟨hs, hlive⟩ := List.mem_filter.1 (List.mem_of_mem_take hs)
        have hnode := List.getElem?_eq_getElem (hfound s hs).lt
        rw [node_of_getElem? hnode] at hlive ⊢
        exact ⟨hnode, by simpa using hlive⟩
      refine ⟨?_, ?_, ?_⟩
      · rw [List.length_map]
        exact List.length_take_le _ _
      · rw [List.map_map]
        have hkept : (((found.filter fun s => !(ix.node s.idx).removed).take k).map (·.idx)).Nodup :=
          honce.sublist (((List.take_sublist _ _).trans List.filter_sublist).map _)
        refine List.Nodup.map_on ?_ (List.Nodup.of_map _ hkept)
        intro s hs t ht hvid
        obtain ⟨hs', hsl⟩ := hlive s hs
        obtain ⟨ht', htl⟩ := hlive t ht
        have hidx := h.keyed.unique hs' ht' hsl htl hvid
        exact List.inj_on_of_nodup_map hkept hs ht hidx
      · intro p hp
        obtain ⟨s, hs, rfl⟩ := List.mem_map.1 hp
        exact ⟨s.idx, ix.node s.idx, (hlive s hs).1, (hlive s hs).2, rfl⟩

/-- Every layer search started at a node ends of itself, the fuel of the model never spent. -/
theorem Wired.searchEnds (h : ix.Wired) (q : List UInt32) (ef level : ℕ) {ep : ℕ} (hep : ep < ix.nodes.length) :
    SearchEnds ix q ef level (ix.searchStart q ep)
      (ix.searchLoop q ef level (ix.nodes.length + 1) (ix.searchStart q ep)) :=
  (searchLayer_spec (P := fun i => i < ix.nodes.length) (q := q)
    (fun i _ j hj => ⟨(h.target i level j hj).1, (h.target i level j hj).1⟩) hep hep).1

theorem WellFormed.linked (h : ix.WellFormed) : ix.Linked := by
  refine ⟨fun e he => (h.entry e he).1, fun n hn nbs hnbs j hj => ?_⟩
  obtain ⟨i, hi⟩ := List.mem_iff_getElem?.1 hn
  obtain ⟨lvl, hlvl⟩ := List.mem_iff_getElem?.1 hnbs
  have hmem : j ∈ ix.neighborsAt i lvl := by
    rw [neighborsAt, node_of_getElem? hi, List.getD_eq_getElem?_getD, hlvl]
    exact hj
  exact (h.wired.target i lvl j hmem).1

theorem definition_apply (h : ix.WellFormed) (op : IndexOp) : (op.apply ix).definition = ix.definition := by
  cases op with
  | insert vid v =>
    change (ix.insert vid v).definition = _
    cases hvid : ix.byVid.lookup vid with
    | some i => rw [insert_of_some (by rw [hvid]; rfl)]
    | none => exact (insert_of_none h.keyed h.linked hvid v).definition
  | markDead vid => exact markDead_definition ix vid
  | remove vid => exact remove_definition ix vid

theorem definition_run (ops : List IndexOp) (h : ix.WellFormed) :
    (ops.foldl IndexOp.apply ix).definition = ix.definition := by
  induction ops generalizing ix with
  | nil => rfl
  | cons op ops ih => exact (ih (h.apply op)).trans (definition_apply h op)

/-- **The structural invariants of the graph**, after any operations in any order: lists without
repetition, without their owner, among the nodes and within the degree bounds; the entry in
the top layer and no node above it; the id map and the count of marks exact; every layer search
ends, and a search returns at most `k` rows, each once, none rolled back. -/
theorem hnsw_invariants (d : IndexDef) (ops : List IndexOp) :
    let ix := ops.foldl IndexOp.apply (VectorIndex.new d)
    (∀ (i : ℕ) (n : Node), ix.nodes[i]? = some n → ∀ (l : ℕ) (nbs : List ℕ), n.neighbors[l]? = some nbs →
      (∀ j ∈ nbs, j < ix.nodes.length) ∧ i ∉ nbs ∧ nbs.Nodup ∧
        nbs.length ≤ if l = 0 then 2 * d.params.m else d.params.m) ∧
    (ix.entry = none ↔ ix.nodes = []) ∧
    (∀ e, ix.entry = some e → ∃ n, ix.nodes[e]? = some n ∧ n.neighbors.length = ix.maxLevel + 1) ∧
    (∀ n ∈ ix.nodes, n.neighbors.length ≤ ix.maxLevel + 1) ∧
    (∀ vid i, ix.byVid.lookup vid = some i ↔ ∃ n, ix.nodes[i]? = some n ∧ n.removed = false ∧ n.vid = vid) ∧
    (∀ (i j : ℕ) (n m : Node), ix.nodes[i]? = some n → ix.nodes[j]? = some m → n.removed = false → m.removed = false →
      n.vid = m.vid → i = j) ∧
    ix.deadCount = (ix.nodes.filter fun n => !n.removed && n.dead).length ∧
    (∀ (q : List UInt32) (ef level ep : ℕ), ep < ix.nodes.length → SearchEnds ix q ef level (ix.searchStart q ep)
      (ix.searchLoop q ef level (ix.nodes.length + 1) (ix.searchStart q ep))) ∧
    ∀ (query : List UInt32) (k : ℕ) (efSearch : Option ℕ), (ix.search query k efSearch).length ≤ k ∧
      ((ix.search query k efSearch).map (·.1)).Nodup ∧
      ∀ p ∈ ix.search query k efSearch, ∃ (i : ℕ) (n : Node), ix.nodes[i]? = some n ∧ n.removed = false ∧ n.vid = p.1 := by
  intro ix
  have h : ix.WellFormed := (WellFormed.new d).run ops
  have hdef : ix.definition = d := definition_run ops (WellFormed.new d)
  refine ⟨fun i n hn l nbs hl => ?_, ⟨h.noEntry, fun hempty => ?_⟩, fun e he => ?_, fun n hn => ?_, h.keyed,
    fun i j n m hn hm hl hl' hvid => h.keyed.unique hn hm hl hl' hvid, ?_, fun q ef level ep hep =>
      h.wired.searchEnds q ef level hep, h.search⟩
  · have hlist : ix.neighborsAt i l = nbs := by
      rw [neighborsAt, node_of_getElem? hn, List.getD_eq_getElem?_getD, hl]
      rfl
    have hbound := h.bounded i l
    rw [hlist, degreeBound, hdef, Nat.mul_comm] at hbound
    exact ⟨fun j hj => (h.wired.target i l j (hlist ▸ hj)).1, hlist ▸ h.wired.irrefl i l, hlist ▸ h.wired.nodup i l, hbound⟩
  · cases hentry : ix.entry with
    | none => rfl
    | some e =>
      have hlt := (h.entry e hentry).1
      rw [hempty] at hlt
      exact absurd hlt (Nat.not_lt_zero e)
  · obtain ⟨hlt, hlayers⟩ := h.entry e he
    have hnode := List.getElem?_eq_getElem hlt
    refine ⟨_, hnode, ?_⟩
    rw [← hlayers, layers, node_of_getElem? hnode]
  · obtain ⟨i, hi⟩ := List.mem_iff_getElem?.1 hn
    have htop := h.top i
    rwa [layers, node_of_getElem? hi] at htop
  · rw [h.dead, deadNodes, List.countP_eq_length_filter]

end Twill.VectorIndex
