/-
A vector index read back from its pages (`vector.rs`).

What the packing loop has written is a list of pages of nodes and the page being filled
(`Packed`): each page fits, none is empty, and together they are the nodes in their order. A
page is read back whatever follows its last record, so the zeros of the page store do not
matter.
-/
import Twill.VectorPages
import Twill.WalRoundTrip

namespace Twill

open ByteReader (Reads times)
open WalBytes (putU32 putU64 textBytes fromUTF8_textBytes)

namespace VectorIndex

/-! ## Records -/

theorem reads_getU8 (b : UInt8) : Reads getU8 [b] b := (Reads.take _ [b]).map _

theorem reads_getU32 {n : ℕ} (hn : n < 2 ^ 32) : Reads getU32 (putU32 n) n := by
  have hread : Reads getU32 (putU32 n) (n % 2 ^ 32) := Reads.number _ 4 n
  rwa [Nat.mod_eq_of_lt hn] at hread

theorem reads_getU64 {n : ℕ} (hn : n < 2 ^ 64) : Reads getU64 (putU64 n) n := by
  have hread : Reads getU64 (putU64 n) (n % 2 ^ 64) := Reads.number _ 8 n
  rwa [Nat.mod_eq_of_lt hn] at hread

/-- What a record can say of a node. -/
structure Recordable (dim : ℕ) (n : Node) : Prop where
  vid : n.vid < 2 ^ 64
  dim : n.vector.length = dim
  levels : n.neighbors.length < 2 ^ 32
  degrees : ∀ nbs ∈ n.neighbors, nbs.length < 2 ^ 32
  links : ∀ nbs ∈ n.neighbors, ∀ j ∈ nbs, j < 2 ^ 32

theorem flags_node (n : Node) : (nodeFlags n &&& 1 ≠ 0 ↔ n.removed) ∧ (nodeFlags n &&& 2 ≠ 0 ↔ n.dead) := by
  unfold nodeFlags
  cases n.removed <;> cases n.dead <;> decide

theorem reads_links {nbs : List ℕ} (hdegree : nbs.length < 2 ^ 32) (hlinks : ∀ j ∈ nbs, j < 2 ^ 32) :
    Reads getLinks (putLinks nbs) nbs :=
  (reads_getU32 hdegree).bind (Reads.times fun j hj => reads_getU32 (hlinks j hj))

theorem reads_vector {dim : ℕ} {v : List UInt32} (hdim : v.length = dim) :
    Reads (times dim (UInt32.ofNat <$> getU32)) (v.flatMap fun x => putU32 x.toNat) v := by
  subst hdim
  refine Reads.times fun x _ => ?_
  have hread := (reads_getU32 x.toNat_lt).map UInt32.ofNat
  rwa [UInt32.ofNat_toNat] at hread

/-- A node's record is read back. -/
theorem reads_node {dim : ℕ} {n : Node} (h : Recordable dim n) : Reads (getNode dim) (putNode n) n := by
  obtain ⟨hremoved, hdead⟩ := flags_node n
  have hlevels : Reads (times n.neighbors.length getLinks) (n.neighbors.flatMap putLinks) n.neighbors :=
    Reads.times fun nbs hnbs => reads_links (h.degrees nbs hnbs) (h.links nbs hnbs)
  have hread : Reads (getNode dim) (putNode n) _ := (reads_getU64 h.vid).bind ((reads_getU8 (nodeFlags n)).bind
    ((reads_getU32 h.levels).bind ((reads_vector h.dim).bind (Reads.last hlevels _))))
  simp only [hremoved, hdead, Bool.decide_coe] at hread
  exact hread

/-- The bytes of a body page. -/
def pageBytes (ns : List Node) : List UInt8 := putU32 ns.length ++ ns.flatMap putNode

theorem reads_page {dim : ℕ} {ns : List Node} (hcount : ns.length < 2 ^ 32) (h : ∀ n ∈ ns, Recordable dim n) :
    Reads (getPage dim) (pageBytes ns) ns :=
  (reads_getU32 hcount).bind (Reads.times fun n hn => reads_node (h n hn))

/-! ## Packing -/

/-- What the packing loop has done: `pages` are written, `current` is being filled. -/
structure Packed (dim : ℕ) (done : List Node) (p : Packing) (pages : List (List Node)) (current : List Node) : Prop where
  body : p.body = pages.map pageBytes
  page : p.page = current.flatMap putNode
  count : p.count = current.length
  all : done = pages.flatten ++ current
  full : ∀ ns ∈ pages, ns ≠ [] ∧ (pageBytes ns).length ≤ pageCap
  room : 4 + p.page.length ≤ pageCap
  fits : ∀ n ∈ done, n.vector.length = dim ∧ (putNode n).length + 4 ≤ pageCap

theorem Packed.empty (dim : ℕ) : Packed dim [] ⟨[], [], 0⟩ [] [] :=
  ⟨rfl, rfl, rfl, rfl, by simp, by decide, by simp⟩

theorem length_putU32 (n : ℕ) : (putU32 n).length = 4 := ByteReader.length_toLe 4 n

/-- Writing the current page out. -/
theorem Packed.flush {dim : ℕ} {done : List Node} {p : Packing} {pages : List (List Node)} {current : List Node}
    (h : Packed dim done p pages current) :
    ∃ pages', Packed dim done p.flush pages' [] := by
  unfold Packing.flush
  by_cases hzero : p.count = 0
  · have hcurrent : current = [] := List.length_eq_zero_iff.1 (h.count.symm.trans hzero)
    rw [if_pos hzero]
    exact ⟨pages, hcurrent ▸ h⟩
  · rw [if_neg hzero]
    have hne : current ≠ [] := fun hnil => hzero (by rw [h.count, hnil]; rfl)
    refine ⟨pages ++ [current], ⟨?_, rfl, rfl, ?_, ?_, by simp [pageCap], h.fits⟩⟩
    · rw [List.map_append, h.body, h.count, h.page]
      rfl
    · rw [h.all, List.flatten_append, List.flatten_singleton, List.append_nil]
    · intro ns hns
      rcases List.mem_append.1 hns with hns | hns
      · exact h.full ns hns
      · obtain rfl := List.mem_singleton.1 hns
        refine ⟨hne, ?_⟩
        have hroom := h.room
        rw [h.page] at hroom
        rwa [pageBytes, List.length_append, length_putU32]

/-- One more record. -/
theorem Packed.push {dim : ℕ} {done : List Node} {p : Packing} {pages : List (List Node)} {current : List Node}
    (h : Packed dim done p pages current) {n : Node} (hdim : n.vector.length = dim) (hfits : (putNode n).length + 4 ≤ pageCap)
    (hroom : 4 + p.page.length + (putNode n).length ≤ pageCap) :
    Packed dim (done ++ [n]) { p with page := p.page ++ putNode n, count := p.count + 1 } pages (current ++ [n]) := by
  refine ⟨h.body, ?_, ?_, ?_, h.full, ?_, ?_⟩
  · rw [List.flatMap_append, ← h.page, List.flatMap_singleton]
  · rw [List.length_append, ← h.count]
    rfl
  · rw [h.all, List.append_assoc]
  · rw [List.length_append]
    omega
  · intro m hm
    rcases List.mem_append.1 hm with hm | hm
    · exact h.fits m hm
    · obtain rfl := List.mem_singleton.1 hm
      exact ⟨hdim, hfits⟩

theorem Packed.add {dim : ℕ} {done : List Node} {p p' : Packing} {pages : List (List Node)} {current : List Node}
    (h : Packed dim done p pages current) {n : Node} (hadd : p.add dim n = some p') :
    ∃ pages' current', Packed dim (done ++ [n]) p' pages' current' := by
  unfold Packing.add at hadd
  split at hadd
  · cases hadd
  · rename_i hdim
    rw [not_not] at hdim
    dsimp only at hadd
    split at hadd
    · cases hadd
    · rename_i hfits
      rw [not_lt] at hfits
      split at hadd
      · -- the record starts a new page
        obtain ⟨pages', hflush⟩ := h.flush
        cases hadd
        have hempty : p.flush.page.length = 0 := by rw [hflush.page]; rfl
        exact ⟨pages', _, hflush.push hdim hfits (by omega)⟩
      · cases hadd
        exact ⟨pages, _, h.push hdim hfits (by omega)⟩

theorem Packed.run {dim : ℕ} (nodes : List Node) {done : List Node} {p p' : Packing} {pages : List (List Node)}
    {current : List Node} (h : Packed dim done p pages current) (hrun : nodes.foldlM (Packing.add dim) p = some p') :
    ∃ pages' current', Packed dim (done ++ nodes) p' pages' current' := by
  induction nodes generalizing done p pages current with
  | nil =>
    cases hrun
    rw [List.append_nil]
    exact ⟨pages, current, h⟩
  | cons n nodes ih =>
    rw [List.foldlM_cons] at hrun
    obtain ⟨p₁, hadd, hrest⟩ := Option.bind_eq_some_iff.1 hrun
    obtain ⟨pages₁, current₁, h₁⟩ := h.add hadd
    obtain ⟨pages', current', h'⟩ := ih h₁ hrest
    rw [List.append_assoc] at h'
    exact ⟨pages', current', h'⟩

/-- What all the nodes are packed into. -/
theorem packed_pages {dim : ℕ} {nodes : List Node} {p : Packing} (hrun : nodes.foldlM (Packing.add dim) ⟨[], [], 0⟩ = some p) :
    ∃ pages : List (List Node), p.flush.body = pages.map pageBytes ∧ nodes = pages.flatten ∧
      (∀ ns ∈ pages, ns ≠ [] ∧ (pageBytes ns).length ≤ pageCap) ∧
      ∀ n ∈ nodes, n.vector.length = dim ∧ (putNode n).length + 4 ≤ pageCap := by
  obtain ⟨pages, current, hrunned⟩ := (Packed.empty dim).run nodes hrun
  obtain ⟨pages', h⟩ := hrunned.flush
  rw [List.nil_append] at h
  exact ⟨pages', h.body, by rw [h.all, List.append_nil], h.full, h.fits⟩

/-! ## The header -/

/-- Everything the header says fits its field. -/
structure HeaderFits (ix : VectorIndex) (dim reflectedLsn bodyPages : ℕ) : Prop where
  dim : dim < 2 ^ 32
  nodes : ix.nodes.length < 2 ^ 32
  entry : ∀ e, ix.entry = some e → e < 2 ^ 32
  maxLevel : ix.maxLevel < 2 ^ 32
  lsn : reflectedLsn < 2 ^ 64
  dead : ix.deadCount < 2 ^ 64
  floor : ix.rebuildFloor < 2 ^ 64
  pages : bodyPages < 2 ^ 32
  name : (textBytes ix.definition.name).length < 2 ^ 32

/-- The header that is read back. -/
def headerOf (ix : VectorIndex) (dim reflectedLsn bodyPages : ℕ) : PageHeader where
  metric := ix.definition.params.metric
  dim := dim
  nodeCount := ix.nodes.length
  entry := ix.entry
  maxLevel := ix.maxLevel
  reflectedLsn := reflectedLsn
  deadCount := ix.deadCount
  rebuildFloor := ix.rebuildFloor
  numBodyPages := bodyPages
  name := ix.definition.name

theorem entry_raw {entry : Option ℕ} (h : ∀ e, entry = some e → e < 2 ^ 32) : entry.getD (2 ^ 64 - 1) < 2 ^ 64 ∧
    (if entry.getD (2 ^ 64 - 1) ≠ 2 ^ 64 - 1 then some (entry.getD (2 ^ 64 - 1)) else none) = entry := by
  cases entry with
  | none => exact ⟨by decide, rfl⟩
  | some e =>
    have he := h e rfl
    rw [Option.getD_some]
    exact ⟨by omega, if_pos (by omega)⟩

/-- The header page is read back, whatever follows it. -/
theorem parse_putHeader {ix : VectorIndex} {dim reflectedLsn bodyPages : ℕ} (h : HeaderFits ix dim reflectedLsn bodyPages)
    (rest : List UInt8) :
    parsePageHeader (ix.putHeader dim reflectedLsn bodyPages ++ rest) = some (ix.headerOf dim reflectedLsn bodyPages) := by
  obtain ⟨hraw, hentry⟩ := entry_raw h.entry
  have hmagic : pageMagic.length = 8 := by decide
  have htail : ∃ tail, ix.putHeader dim reflectedLsn bodyPages = pageMagic ++ tail ∧
      Reads getHeader tail (ix.headerOf dim reflectedLsn bodyPages) := by
    refine ⟨_, rfl, ?_⟩
    have hname := fromUTF8_textBytes ix.definition.name
    refine (reads_getU8 _).bind ((reads_getU32 h.dim).bind ((reads_getU64 (h.nodes.trans (by norm_num))).bind
      ((reads_getU64 hraw).bind ((reads_getU32 h.maxLevel).bind ((reads_getU64 h.lsn).bind ((reads_getU64 h.dead).bind
        ((reads_getU64 h.floor).bind ((reads_getU32 h.pages).bind ((reads_getU32 h.name).bind
          ((Reads.take none (textBytes ix.definition.name)).bind_nil ?_))))))))))
    rw [hname, hentry, WalBytes.metric_fromTag]
    exact Reads.pure _
  obtain ⟨tail, hheader, hread⟩ := htail
  rw [hheader, List.append_assoc, parsePageHeader, ← hmagic, List.take_left, List.drop_left, if_neg (by simp), hread]
  rfl

/-! ## The index -/

/-- A frame in a page of full size. -/
def padPage (frame : List UInt8) : List UInt8 := frame ++ List.replicate (pageCap - frame.length) 0

theorem mapM_pages {dim : ℕ} {pages : List (List Node)} (h : ∀ ns ∈ pages, ns.length < 2 ^ 32 ∧ ∀ n ∈ ns, Recordable dim n) :
    ((pages.map pageBytes).map padPage).mapM (fun body => (getPage dim body).map (·.1)) = some pages := by
  induction pages with
  | nil => rfl
  | cons ns pages ih =>
    obtain ⟨hcount, hnodes⟩ := h ns List.mem_cons_self
    have hread : (getPage dim (padPage (pageBytes ns))).map (·.1) = some ns := by
      rw [padPage, reads_page hcount hnodes]
      rfl
    rw [List.map_cons, List.map_cons, List.mapM_cons, hread, ih fun ms hms => h ms (List.mem_cons_of_mem ns hms)]
    rfl

/-- The map rebuilt from the nodes leads where the index's own did. -/
theorem lookup_vidMap {ix : VectorIndex} (h : ix.Keyed) (vid : ℕ) : (vidMap ix.nodes).lookup vid = ix.byVid.lookup vid := by
  have hmem (i : ℕ) : ((∃ p ∈ ix.nodes.zipIdx.filter (fun p => !p.1.removed), p.1.vid = vid ∧ p.2 = i) ↔
      ix.byVid.lookup vid = some i) := by
    rw [h vid i]
    constructor
    · rintro ⟨⟨n, j⟩, hp, rfl, rfl⟩
      obtain ⟨hzip, hlive⟩ := List.mem_filter.1 hp
      exact ⟨n, List.mem_zipIdx_iff_getElem?.1 hzip, by simpa using hlive, rfl⟩
    · rintro ⟨n, hn, hlive, rfl⟩
      exact ⟨(n, i), List.mem_filter.2 ⟨List.mem_zipIdx_iff_getElem?.2 hn, by simp [hlive]⟩, rfl, rfl⟩
  cases hlookup : (vidMap ix.nodes).lookup vid with
  | some i =>
    rcases AList.mem_of_lookup_foldl_insert hlookup with ⟨p, hp, hkey, hval⟩ | hempty
    · exact ((hmem i).1 ⟨p, hp, hkey, hval⟩).symm
    · cases hempty
  | none =>
    cases hown : ix.byVid.lookup vid with
    | none => rfl
    | some i =>
      obtain ⟨p, hp, hkey, -⟩ := (hmem i).2 hown
      have hsome : ((vidMap ix.nodes).lookup vid).isSome := AList.isSome_lookup_foldl_insert (.inl ⟨p, hp, hkey⟩)
      rw [hlookup] at hsome
      cases hsome

theorem length_putU64 (n : ℕ) : (putU64 n).length = 8 := ByteReader.length_toLe 8 n

theorem length_flatMap_putU32 {α : Type} (g : α → ℕ) (l : List α) : (l.flatMap fun a => putU32 (g a)).length = 4 * l.length := by
  induction l with
  | nil => rfl
  | cons a l ih =>
    rw [List.flatMap_cons, List.length_append, length_putU32, ih, List.length_cons]
    omega

/-- A record bounds what it holds. -/
theorem bounds_of_record (n : Node) : 4 * n.vector.length ≤ (putNode n).length ∧ 4 * n.neighbors.length ≤ (putNode n).length ∧
    ∀ nbs ∈ n.neighbors, 4 * nbs.length ≤ (putNode n).length := by
  have hlinks (nbs : List ℕ) : (putLinks nbs).length = 4 + 4 * nbs.length := by
    rw [putLinks, List.length_append, length_putU32]
    exact congrArg (4 + ·) (length_flatMap_putU32 id nbs)
  have hall : ∀ ls : List (List ℕ), 4 * ls.length ≤ (ls.flatMap putLinks).length ∧
      ∀ nbs ∈ ls, 4 * nbs.length ≤ (ls.flatMap putLinks).length := by
    intro ls
    induction ls with
    | nil => simp
    | cons nbs ls ih =>
      rw [List.flatMap_cons, List.length_append, hlinks, List.length_cons]
      refine ⟨by omega, fun ms hms => ?_⟩
      rcases List.mem_cons.1 hms with rfl | hms
      · omega
      · have hle := ih.2 ms hms
        omega
  obtain ⟨hlevels, hdegrees⟩ := hall n.neighbors
  have hlength : (putNode n).length = 13 + 4 * n.vector.length + (n.neighbors.flatMap putLinks).length := by
    simp only [putNode, List.length_append, List.length_cons, length_putU64, length_putU32, length_flatMap_putU32]
    omega
  refine ⟨by omega, by omega, fun nbs hnbs => ?_⟩
  have hle := hdegrees nbs hnbs
  omega

/-- What `u64` says of an index: the vids of its nodes and its floor. -/
structure InRange (ix : VectorIndex) : Prop where
  vids : ∀ n ∈ ix.nodes, n.vid < 2 ^ 64
  floor : ix.rebuildFloor < 2 ^ 64

theorem pages_le (pages : List (List Node)) (h : ∀ ns ∈ pages, ns ≠ []) : pages.length ≤ pages.flatten.length := by
  induction pages with
  | nil => exact Nat.le_refl _
  | cons ns pages ih =>
    have hpos := List.length_pos_iff.2 (h ns List.mem_cons_self)
    have hrest := ih fun ms hms => h ms (List.mem_cons_of_mem ns hms)
    rw [List.length_cons, List.flatten_cons, List.length_append]
    omega

theorem name_le_header (ix : VectorIndex) (dim reflectedLsn bodyPages : ℕ) :
    (textBytes ix.definition.name).length ≤ (ix.putHeader dim reflectedLsn bodyPages).length := by
  simp only [putHeader, List.length_append, List.length_cons]
  omega

/-- The frames an index is written to. -/
theorem frames_spec {ix : VectorIndex} {l : ℕ} {frames : List (List UInt8)} (h : ix.toPageFrames l = some frames) :
    ∃ (dim : ℕ) (pages : List (List Node)), frames = ix.putHeader dim l pages.length :: pages.map pageBytes ∧ ix.nodes ≠ [] ∧
      ix.nodes = pages.flatten ∧ (ix.putHeader dim l pages.length).length ≤ pageCap ∧
      (∀ ns ∈ pages, ns ≠ [] ∧ (pageBytes ns).length ≤ pageCap) ∧
      ∀ n ∈ ix.nodes, n.vector.length = dim ∧ (putNode n).length + 4 ≤ pageCap := by
  unfold toPageFrames at h
  cases hnodes : ix.nodes with
  | nil =>
    rw [hnodes] at h
    cases h
  | cons first rest =>
    rw [hnodes] at h
    obtain ⟨packed, hrun, h⟩ := Option.bind_eq_some_iff.1 h
    obtain ⟨pages, hbody, hall, hfull, hfits⟩ := packed_pages hrun
    dsimp only at h
    rw [hbody, List.length_map] at h
    split at h
    · cases h
    · rename_i hroom
      cases h
      exact ⟨first.vector.length, pages, rfl, by simp, hall, by omega, hfull, hfits⟩

/-- A well-formed index that was written is read back from full pages. -/
theorem WellFormed.pages {ix : VectorIndex} (h : ix.WellFormed) (hrange : ix.InRange) {l : ℕ} (hl : l < 2 ^ 64)
    (hcount : ix.nodes.length < 2 ^ 32) {frames : List (List UInt8)} (hframes : ix.toPageFrames l = some frames) :
    (∀ frame ∈ frames, frame.length ≤ pageCap) ∧
    (∃ restored, fromPageFrames ix.definition (frames.map padPage) = some restored ∧ restored.definition = ix.definition ∧
      restored.nodes = ix.nodes ∧ (∀ vid, restored.byVid.lookup vid = ix.byVid.lookup vid) ∧ restored.entry = ix.entry ∧
      restored.maxLevel = ix.maxLevel ∧ restored.deadCount = ix.deadCount ∧ restored.rebuildFloor = ix.rebuildFloor) ∧
    ∃ first bodies header, frames = first :: bodies ∧ parsePageHeader (padPage first) = some header ∧
      header.reflectedLsn = l ∧ header.name = ix.definition.name := by
  obtain ⟨dim, pages, rfl, hne, hall, hroom, hfull, hfits⟩ := frames_spec hframes
  have hrecord : ∀ n ∈ ix.nodes, Recordable dim n := by
    intro n hn
    obtain ⟨hdim, hlength⟩ := hfits n hn
    obtain ⟨-, hlevels, hdegrees⟩ := bounds_of_record n
    rw [pageCap] at hlength
    refine ⟨hrange.vids n hn, hdim, by omega, fun nbs hnbs => ?_, fun nbs hnbs j hj => ?_⟩
    · have hle := hdegrees nbs hnbs
      omega
    · exact (h.linked.links n hn nbs hnbs j hj).trans hcount
  have hpages : pages.length < 2 ^ 32 := by
    have hle := pages_le pages fun ns hns => (hfull ns hns).1
    rw [← hall] at hle
    omega
  have hheader : HeaderFits ix dim l pages.length := by
    obtain ⟨first, hfirst⟩ := List.exists_mem_of_ne_nil _ hne
    obtain ⟨hdim, hlength⟩ := hfits first hfirst
    obtain ⟨hvector, -, -⟩ := bounds_of_record first
    have hname := name_le_header ix dim l pages.length
    rw [pageCap] at hlength hroom
    refine ⟨by omega, hcount, fun e he => (h.entry e he).1.trans hcount, ?_, hl, ?_, hrange.floor, hpages, by omega⟩
    · obtain ⟨e, he⟩ := Option.ne_none_iff_exists'.1 fun hnone => hne (h.noEntry hnone)
      obtain ⟨hlt, hlayers⟩ := h.entry e he
      obtain ⟨n, hn⟩ : ∃ n, ix.nodes[e]? = some n := ⟨_, List.getElem?_eq_getElem hlt⟩
      obtain ⟨-, hlevels, -⟩ := bounds_of_record n
      have hfit := (hfits n (List.mem_of_getElem? hn)).2
      rw [layers, node_of_getElem? hn] at hlayers
      rw [pageCap] at hfit
      omega
    · have hle : ix.deadNodes ≤ ix.nodes.length := List.countP_le_length
      rw [h.dead]
      omega
  have hparse := parse_putHeader hheader (List.replicate (pageCap - (ix.putHeader dim l pages.length).length) 0)
  have hbodies := mapM_pages fun ns hns => by
    refine ⟨?_, fun n hn => hrecord n (hall ▸ List.mem_flatten_of_mem hns hn)⟩
    have hle := (List.sublist_flatten_of_mem hns).length_le
    rw [← hall] at hle
    omega
  refine ⟨?_, ?_, ⟨_, _, _, rfl, hparse, rfl, rfl⟩⟩
  · intro frame hframe
    rcases List.mem_cons.1 hframe with rfl | hframe
    · exact hroom
    · obtain ⟨ns, hns, rfl⟩ := List.mem_map.1 hframe
      exact (hfull ns hns).2
  · refine ⟨⟨ix.definition, ix.nodes, vidMap ix.nodes, ix.entry, ix.maxLevel, 0x243F6A8885A308D3, ix.deadCount,
      ix.rebuildFloor⟩, ?_, rfl, rfl, lookup_vidMap h.keyed, rfl, rfl, rfl, rfl⟩
    have hlength : (pages.map pageBytes).length = pages.length := List.length_map _
    have hdead : (ix.nodes.countP fun n => !n.removed && n.dead) = ix.deadCount := h.dead.symm
    rw [List.map_cons, fromPageFrames, padPage, hparse]
    simp only [Option.bind_eq_bind, Option.bind_some, headerOf, List.length_cons, List.length_map, ne_eq, not_true_eq_false,
      if_false, hbodies, ← hall, hdead]

/-! ## Reachable indexes -/

/-- An operation on an index, compaction's mark included. -/
inductive GraphOp where
  | index (op : IndexOp)
  | setRebuildFloor (lsn : ℕ)

def GraphOp.apply (ix : VectorIndex) : GraphOp → VectorIndex
  | .index op => op.apply ix
  | .setRebuildFloor lsn => ix.setRebuildFloor lsn

/-- The operation's numbers are `u64`. -/
def GraphOp.InRange : GraphOp → Prop
  | .index (.insert vid _) => vid < 2 ^ 64
  | .index _ => True
  | .setRebuildFloor lsn => lsn < 2 ^ 64

/-- The vids after an insertion. -/
theorem vids_place {ix : VectorIndex} (h : ix.WellFormed) (vid : ℕ) (v : List UInt32) (level : ℕ) :
    (ix.place vid v level).nodes.map Node.vid = ix.nodes.map Node.vid ++ [vid] := by
  have hadd : (ix.addNode vid v level).nodes.map Node.vid = ix.nodes.map Node.vid ++ [vid] := by simp [VectorIndex.addNode]
  unfold VectorIndex.place
  cases hentry : ix.entry with
  | none => exact hadd
  | some entry =>
    have hset := linkNewNode_settled h vid v level hentry
    dsimp only
    generalize (ix.addNode vid v level).linkNewNode ix.nodes.length entry level = linked at hset ⊢
    have hvids := congrArg (List.map fun b : Node => b.vid) hset.relinked.nodes
    simp only [List.map_map, Function.comp_def] at hvids
    split
    · exact hvids.trans hadd
    · exact hvids.trans hadd

theorem vids_modifyNode (ix : VectorIndex) (i : ℕ) {f : Node → Node} (hf : ∀ n, (f n).vid = n.vid) :
    (ix.modifyNode i f).nodes.map Node.vid = ix.nodes.map Node.vid :=
  map_modify_eq (g := Node.vid) hf ix.nodes i

/-- The vids and the floor an operation leaves. -/
theorem GraphOp.apply_keeps {ix : VectorIndex} (h : ix.WellFormed) (op : GraphOp) :
    (∀ n ∈ (op.apply ix).nodes, (∃ m ∈ ix.nodes, m.vid = n.vid) ∨ ∃ v, op = .index (.insert n.vid v)) ∧
    ((op.apply ix).rebuildFloor = ix.rebuildFloor ∨ op = .setRebuildFloor (op.apply ix).rebuildFloor) := by
  have hsame {ix' : VectorIndex} (hvids : ix'.nodes.map Node.vid = ix.nodes.map Node.vid) :
      ∀ n ∈ ix'.nodes, ∃ m ∈ ix.nodes, m.vid = n.vid := by
    intro n hn
    have hmem : n.vid ∈ ix.nodes.map Node.vid := hvids ▸ List.mem_map_of_mem hn
    exact List.mem_map.1 hmem
  cases op with
  | setRebuildFloor lsn => exact ⟨fun n hn => .inl ⟨n, hn, rfl⟩, .inr rfl⟩
  | index op =>
    cases op with
    | markDead vid =>
      refine ⟨fun n hn => .inl (hsame ?_ n hn), .inl (markDead_floor ix vid)⟩
      have hnodes := congrArg (List.map fun p : Bool × ℕ × List UInt32 => p.2.1) (markDead_nodes ix vid)
      simp only [List.map_map, Function.comp_def] at hnodes
      exact hnodes
    | remove vid =>
      refine ⟨fun n hn => .inl (hsame ?_ n hn), .inl (remove_floor ix vid)⟩
      change (ix.remove vid).nodes.map Node.vid = _
      unfold VectorIndex.remove
      split
      · exact vids_modifyNode ix _ fun _ => rfl
      · rfl
    | insert vid v =>
      cases hvid : ix.byVid.lookup vid with
      | some i =>
        have heq : (GraphOp.index (.insert vid v)).apply ix = ix := insert_of_some (by rw [hvid]; rfl) v
        rw [heq]
        exact ⟨fun n hn => .inl ⟨n, hn, rfl⟩, .inl rfl⟩
      | none =>
        refine ⟨fun n hn => ?_, .inl (insert_of_none h.keyed h.linked hvid v).floor⟩
        obtain ⟨rng, hsnd⟩ := randomLevel_snd ix
        have hplace : (GraphOp.index (.insert vid v)).apply ix =
            ({ ix with rng := rng } : VectorIndex).place vid v ix.randomLevel.1 := by
          change ix.insert vid v = _
          rw [insert_eq hvid, hsnd]
        have hdrawn : ({ ix with rng := rng } : VectorIndex).WellFormed :=
          ⟨h.wired.congr rfl, h.bounded, h.top, h.entry, h.noEntry, h.keyed, h.dead⟩
        rw [hplace] at hn
        have hmem := vids_place hdrawn vid v ix.randomLevel.1 ▸ List.mem_map_of_mem (f := Node.vid) hn
        rcases List.mem_append.1 hmem with hold | hnew
        · exact .inl (List.mem_map.1 hold)
        · exact .inr ⟨v, by rw [List.mem_singleton.1 hnew]⟩

theorem WellFormed.applyGraph {ix : VectorIndex} (h : ix.WellFormed) (op : GraphOp) : (op.apply ix).WellFormed := by
  cases op with
  | index op => exact h.apply op
  | setRebuildFloor lsn => exact ⟨h.wired.congr rfl, h.bounded, h.top, h.entry, h.noEntry, h.keyed, h.dead⟩

theorem InRange.apply {ix : VectorIndex} (hrange : ix.InRange) (h : ix.WellFormed) {op : GraphOp} (hop : op.InRange) :
    (op.apply ix).InRange := by
  obtain ⟨hvids, hfloor⟩ := op.apply_keeps h
  constructor
  · intro n hn
    rcases hvids n hn with ⟨m, hm, heq⟩ | ⟨v, rfl⟩
    · exact heq ▸ hrange.vids m hm
    · exact hop
  · rcases hfloor with heq | heq
    · exact heq ▸ hrange.floor
    · rw [heq] at hop
      exact hop

/-- What holds after any operations of `u64` numbers. -/
theorem reachable (ops : List GraphOp) (hops : ∀ op ∈ ops, op.InRange) {ix : VectorIndex} (h : ix.WellFormed)
    (hrange : ix.InRange) :
    (ops.foldl GraphOp.apply ix).WellFormed ∧ (ops.foldl GraphOp.apply ix).InRange ∧
      (ops.foldl GraphOp.apply ix).definition = ix.definition := by
  induction ops generalizing ix with
  | nil => exact ⟨h, hrange, rfl⟩
  | cons op ops ih =>
    obtain ⟨hwell, hin, hdef⟩ := ih (fun o ho => hops o (List.mem_cons_of_mem op ho)) (h.applyGraph op)
      (hrange.apply h (hops op List.mem_cons_self))
    refine ⟨hwell, hin, hdef.trans ?_⟩
    cases op with
    | index op => exact definition_apply h op
    | setRebuildFloor lsn => rfl

/-- **Index pages are read back.** Whatever operations built an index of fewer than `2 ^ 32` nodes,
when it can be written to pages, no frame is longer than a page, and from the frames padded to
full pages come the same nodes, id map, entry, top layer, dead count and floor; the header names
the LSN and the index. -/
theorem page_round_trip (d : IndexDef) (ops : List GraphOp) (hops : ∀ op ∈ ops, op.InRange) (l : ℕ) (hl : l < 2 ^ 64)
    (hcount : (ops.foldl GraphOp.apply (VectorIndex.new d)).nodes.length < 2 ^ 32) (frames : List (List UInt8))
    (hframes : (ops.foldl GraphOp.apply (VectorIndex.new d)).toPageFrames l = some frames) :
    (∀ frame ∈ frames, frame.length ≤ 4096) ∧
    (∃ restored, fromPageFrames d (frames.map padPage) = some restored ∧
      let ix := ops.foldl GraphOp.apply (VectorIndex.new d)
      restored.definition = d ∧ restored.nodes = ix.nodes ∧ (∀ vid, restored.byVid.lookup vid = ix.byVid.lookup vid) ∧
        restored.entry = ix.entry ∧ restored.maxLevel = ix.maxLevel ∧ restored.deadCount = ix.deadCount ∧
        restored.rebuildFloor = ix.rebuildFloor) ∧
    ∃ first bodies header, frames = first :: bodies ∧ parsePageHeader (padPage first) = some header ∧
      header.reflectedLsn = l ∧ header.name = d.name := by
  obtain ⟨hwell, hrange, hdef⟩ := reachable ops hops (WellFormed.new d)
    ⟨(fun n hn => by cases hn), (by change 0 < 2 ^ 64; norm_num)⟩
  have hpages := hwell.pages hrange hl hcount hframes
  rw [hdef] at hpages
  exact hpages

/-- An index of one node, drawn into at most 17 layers, fits its pages. -/
theorem toPageFrames_single {ix : VectorIndex} {n : Node} (hnodes : ix.nodes = [n]) (hfits : (putNode n).length + 4 ≤ pageCap)
    (hname : (textBytes ix.definition.name).length ≤ 4000) (l : ℕ) :
    ix.toPageFrames l = some [ix.putHeader n.vector.length l 1, putU32 1 ++ putNode n] := by
  have hadd : Packing.add n.vector.length ⟨[], [], 0⟩ n = some ⟨[], putNode n, 1⟩ := by
    have hroom : ¬ 4 + 0 + (putNode n).length > pageCap := by omega
    unfold Packing.add
    rw [if_neg (not_not.2 rfl)]
    dsimp only
    rw [if_neg (by omega), List.length_nil, if_neg hroom]
    rfl
  have hheader : ¬ (ix.putHeader n.vector.length l 1).length > pageCap := by
    have hmagic : pageMagic.length = 8 := by decide
    have hlength : (ix.putHeader n.vector.length l 1).length = 65 + (textBytes ix.definition.name).length := by
      simp only [putHeader, List.length_append, List.length_cons, length_putU64, length_putU32, hmagic]
      omega
    rw [hlength, pageCap]
    omega
  have hpacked : ix.nodes.foldlM (Packing.add n.vector.length) ⟨[], [], 0⟩ = some ⟨[], putNode n, 1⟩ := by
    rw [hnodes, List.foldlM_cons, hadd]
    rfl
  have hbody : (Packing.flush ⟨[], putNode n, 1⟩).body = [putU32 1 ++ putNode n] := rfl
  unfold toPageFrames
  rw [hnodes] at hpacked ⊢
  dsimp only
  rw [hpacked]
  simp only [Option.bind_eq_bind, Option.bind_some, hbody, List.length_singleton]
  exact if_neg hheader

theorem randomLevel_le (ix : VectorIndex) : ix.randomLevel.1 ≤ 16 := by
  unfold randomLevel
  exact min_le_right _ _

theorem insert_new (d : IndexDef) (vid : ℕ) (v : List UInt32) :
    ∃ level ≤ 16, ((VectorIndex.new d).insert vid v).nodes = [⟨vid, v, List.replicate (level + 1) [], false, false⟩] := by
  obtain ⟨rng, hsnd⟩ := randomLevel_snd (VectorIndex.new d)
  refine ⟨(VectorIndex.new d).randomLevel.1, randomLevel_le _, ?_⟩
  rw [insert_eq (by rfl), hsnd]
  rfl

theorem page_round_trip_single :
    ∃ frames restored,
      ((VectorIndex.new ⟨"t_e", "t", "e", ⟨16, 200, 64, .l2⟩⟩).insert 1 [7]).toPageFrames 42 = some frames ∧
      fromPageFrames ⟨"t_e", "t", "e", ⟨16, 200, 64, .l2⟩⟩ (frames.map padPage) = some restored ∧
      restored.nodes = ((VectorIndex.new ⟨"t_e", "t", "e", ⟨16, 200, 64, .l2⟩⟩).insert 1 [7]).nodes := by
  obtain ⟨level, hlevel, hnodes⟩ := insert_new ⟨"t_e", "t", "e", ⟨16, 200, 64, .l2⟩⟩ 1 [7]
  have hlinks : ((List.replicate (level + 1) ([] : List ℕ)).flatMap putLinks).length = 4 * (level + 1) := by
    rw [List.length_flatMap, List.map_replicate, List.sum_replicate]
    change (level + 1) * (putLinks []).length = _
    have hnone : (putLinks []).length = 4 := by decide
    rw [hnone, Nat.mul_comm]
  have hfits : (putNode ⟨1, [7], List.replicate (level + 1) [], false, false⟩).length + 4 ≤ pageCap := by
    simp only [putNode, List.length_append, List.length_cons, length_putU64, length_putU32, length_flatMap_putU32, hlinks,
      List.length_nil, pageCap]
    omega
  have hframes := toPageFrames_single hnodes hfits
    (by rw [(insert_of_none (Keyed.new _) (Linked.new _) (by rfl) [7]).definition]; decide) 42
  obtain ⟨-, ⟨restored, hread, -, hsame, -⟩, -⟩ := page_round_trip ⟨"t_e", "t", "e", ⟨16, 200, 64, .l2⟩⟩
    [.index (.insert 1 [7])] (fun op hop => by obtain rfl := List.mem_singleton.1 hop; change 1 < 2 ^ 64; norm_num) 42 (by norm_num)
    (by change ((VectorIndex.new _).insert 1 [7]).nodes.length < 2 ^ 32; rw [hnodes]; norm_num) _ hframes
  exact ⟨_, restored, hframes, hread, hsame⟩

end VectorIndex

end Twill
