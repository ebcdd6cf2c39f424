/-
What a request body stores (`datapath.rs`: `json_rows`): rows that `rows_to_json` wrote come
back, and of any body the literals that come through, each exactly when no integer leaves
binary64, no character is a surrogate pair and nothing is nested.
-/
import Twill.Server.JsonRows

namespace Twill.Server.JsonBody

open Json (Piece denote)

/-! ## Rows written and read -/

/-- The cells that a body has a form of its own for. -/
def Plain : Value → Prop
  | .null | .int _ | .text _ => True
  | .real _ | .blob _ | .vector _ => False

/-- What the reader makes of a written cell. -/
def readCell : Value → Json
  | .int i => .num (asF64 i).toBits
  | .text s => .str s
  | _ => .null

theorem blank_nil : Blank [] := rfl

theorem readPieces_eq {ps : List Piece} {s : String} (h : ps.map Piece.read = s.toList) : readPieces ps = s := by
  rw [readPieces, h, String.ofList_toList]

theorem reads_cell (formatReal : UInt64 → List Char) {v : Value} (h : Plain v) :
    Reads (readCell v) (valueJson formatReal v) := by
  cases v with
  | null => exact reads_null blank_nil blank_nil
  | int i =>
    obtain ⟨hne, hchars, hparse⟩ := Json.numeral i
    obtain ⟨c, cs, hlist⟩ := List.exists_cons_of_ne_nil hne
    have hnumber : ∀ c ∈ (toString i).toList, Json.isNumberChar c = true := by
      intro c hc
      rcases hchars c hc with rfl | hdigit
      · rfl
      · simp [Json.isNumberChar, hdigit]
    have hread := reads_num blank_nil blank_nil hparse hnumber hlist (hchars c (hlist ▸ List.mem_cons_self))
    rwa [List.append_nil] at hread
  | text s =>
    obtain ⟨ps, htext, hread⟩ := exists_pieces s.toList
    have hstr := reads_str blank_nil blank_nil ps
    rw [readPieces_eq hread, htext, List.append_nil] at hstr
    exact hstr
  | _ => exact h.elim

theorem toValue_cell {v : Value} (h : Plain v) : toValue (readCell v) = v ↔ ∀ i, v = .int i → Kept i := by
  cases v with
  | int i =>
    refine (toValue_integer i).trans ⟨fun hkept j hj => ?_, fun hkept => hkept i rfl⟩
    obtain rfl := Value.int.inj hj
    exact hkept
  | null | text s => exact iff_of_true rfl fun i hi => by cases hi
  | _ => exact h.elim

/-- The fields of a written row: NULL where the row is short. -/
def writtenFields (columns : List String) (row : Row) : List (String × Value) :=
  columns.zipIdx.map fun (name, c) => (name, row[c]?.getD .null)

theorem writtenFields_fst (columns : List String) (row : Row) : (writtenFields columns row).map (·.1) = columns := by
  simp [writtenFields, Function.comp_def]

theorem writtenFields_snd {columns : List String} {row : Row} (h : row.length = columns.length) :
    (writtenFields columns row).map (·.2) = row := by
  refine List.ext_getElem (by simp [writtenFields, h]) fun c hc hrow => ?_
  simp [writtenFields, List.getElem?_eq_getElem hrow]

theorem writtenFields_plain {columns : List String} {row : Row} (h : ∀ v ∈ row, Plain v) {f : String × Value}
    (hf : f ∈ writtenFields columns row) : Plain f.2 := by
  obtain ⟨⟨name, c⟩, -, rfl⟩ := List.mem_map.1 hf
  change Plain (row[c]?.getD .null)
  cases hcell : row[c]? with
  | none => trivial
  | some v => exact h v (List.mem_of_getElem? hcell)

def fieldText (formatReal : UInt64 → List Char) (f : String × Value) : List Char :=
  jsonString f.1.toList ++ [':'] ++ valueJson formatReal f.2

def readField (f : String × Value) : String × Json := (f.1, readCell f.2)

theorem readsField_written (formatReal : UInt64 → List Char) {f : String × Value} (h : Plain f.2) :
    ReadsField (readField f) (fieldText formatReal f) := by
  obtain ⟨ps, htext, hread⟩ := exists_pieces f.1.toList
  refine ⟨[], ps, [], valueJson formatReal f.2, blank_nil, blank_nil, readPieces_eq hread, reads_cell formatReal h, ?_⟩
  rw [htext]
  simp [fieldText]

theorem jsonObject_eq (K : Codec) (formatReal : UInt64 → List Char) (columns : List String) (row : Row) :
    jsonObject (K.withJson formatReal) columns row =
      '\x7b' :: (commas ((writtenFields columns row).map (fieldText formatReal)) ++ ['\x7d']) := by
  rw [writtenFields, List.map_map]
  rfl

theorem reads_written_row (K : Codec) (formatReal : UInt64 → List Char) (columns : List String) {row : Row}
    (h : ∀ v ∈ row, Plain v) : Reads (.obj ((writtenFields columns row).map readField))
      (jsonObject (K.withJson formatReal) columns row) := by
  rw [jsonObject_eq]
  by_cases hempty : writtenFields columns row = []
  · rw [hempty]
    exact reads_obj_nil (a := []) (w := []) (b := []) blank_nil blank_nil blank_nil
  · have hfields : ∀ p ∈ (writtenFields columns row).map fun f => (readField f, fieldText formatReal f),
        ReadsField p.1 p.2 := by
      intro p hp
      obtain ⟨f, hf, rfl⟩ := List.mem_map.1 hp
      exact readsField_written formatReal (writtenFields_plain h hf)
    have hread := reads_obj blank_nil blank_nil hfields (by simpa using hempty)
    simpa [List.map_map, Function.comp_def] using hread

theorem reads_written_rows (K : Codec) (formatReal : UInt64 → List Char) (columns : List String) {rows : List Row}
    (h : ∀ row ∈ rows, ∀ v ∈ row, Plain v) :
    Reads (.arr (rows.map fun row => .obj ((writtenFields columns row).map readField)))
      (rowsToJson K formatReal columns rows) := by
  have htext : rowsToJson K formatReal columns rows =
      '[' :: (commas (rows.map (jsonObject (K.withJson formatReal) columns)) ++ [']']) := rfl
  rw [htext]
  cases rows with
  | nil => exact reads_arr_nil (a := []) (w := []) (b := []) blank_nil blank_nil blank_nil
  | cons row rows =>
    have hrows : ∀ p ∈ (row :: rows).map fun row => (Json.obj ((writtenFields columns row).map readField),
        jsonObject (K.withJson formatReal) columns row), Reads p.1 p.2 := by
      intro p hp
      obtain ⟨r, hr, rfl⟩ := List.mem_map.1 hp
      exact reads_written_row K formatReal columns (h r hr)
    have hread := reads_arr blank_nil blank_nil hrows (by simp)
    simpa [List.map_map, Function.comp_def] using hread

/-- A field of a name of its own is the one found. -/
theorem find_field {fields : List (String × Json)} (h : (fields.map (·.1)).Nodup) {f : String × Json} (hf : f ∈ fields) :
    fields.find? (fun g => g.1.toList = f.1.toList) = some f := by
  induction fields with
  | nil => cases hf
  | cons g fields ih =>
    obtain ⟨hfresh, hrest⟩ := List.nodup_cons.1 h
    rcases List.mem_cons.1 hf with rfl | hf
    · exact List.find?_cons_of_pos (by simp)
    · have hne : g.1 ≠ f.1 := fun heq => hfresh (List.mem_map.2 ⟨f, hf, heq.symm⟩)
      rw [List.find?_cons_of_neg (by simpa [String.toList_inj] using hne)]
      exact ih hrest hf

theorem cells_of_fields {fields : List (String × Json)} (h : (fields.map (·.1)).Nodup) :
    (fields.map fun f => f.1.toList).map (cellOf fields) = fields.map fun f => toValue f.2 := by
  rw [List.map_map]
  refine List.map_congr_left fun f hf => ?_
  change cellOf fields f.1.toList = _
  rw [cellOf, find_field h hf]
  rfl

/-- The row that comes back for a written one. -/
def readRow (columns : List String) (row : Row) : Row := (writtenFields columns row).map fun f => toValue (readCell f.2)

theorem jsonRows_written (K : Codec) (formatReal : UInt64 → List Char) {columns : List String} (hnodup : columns.Nodup)
    {rows : List Row} (h : ∀ row ∈ rows, ∀ v ∈ row, Plain v) :
    jsonRows (rowsToJson K formatReal columns rows) (columns.map String.toList) = .ok (rows.map (readRow columns)) := by
  have hparse := parse_of_reads (reads_written_rows K formatReal columns h)
  have hobjects : (rows.map fun row => Json.obj ((writtenFields columns row).map readField)).mapM fieldsOf =
      .ok (rows.map fun row => (writtenFields columns row).map readField) := by
    rw [List.mapM_map]
    exact List.mapM_pure
  have hbody : bodyObjects (rowsToJson K formatReal columns rows) =
      .ok (rows.map fun row => (writtenFields columns row).map readField) := by
    rw [bodyObjects, hparse]
    exact hobjects
  rw [jsonRows, hbody]
  refine congrArg Except.ok ?_
  dsimp only
  rw [List.map_map]
  refine List.map_congr_left fun row _ => ?_
  have hnames : ((writtenFields columns row).map readField).map (fun f => f.1.toList) = columns.map String.toList := by
    have hfst := congrArg (List.map String.toList) (writtenFields_fst columns row)
    rw [List.map_map] at hfst ⊢
    exact hfst
  have hfst : ((writtenFields columns row).map readField).map (·.1) = columns := by
    rw [List.map_map]
    exact writtenFields_fst columns row
  have hcells := cells_of_fields (hfst ▸ hnodup)
  rw [hnames] at hcells
  change (columns.map String.toList).map (cellOf _) = _
  rw [hcells, List.map_map]
  rfl

theorem readRow_iff {columns : List String} {row : Row} (h : ∀ v ∈ row, Plain v) : readRow columns row = row ↔
    row.length = columns.length ∧ ∀ i, .int i ∈ row → Kept i := by
  have hread (hlen : row.length = columns.length) : readRow columns row = row.map fun v => toValue (readCell v) := by
    conv_rhs => rw [← writtenFields_snd hlen]
    rw [List.map_map]
    rfl
  have hcells : (row.map fun v => toValue (readCell v)) = row ↔ ∀ i, .int i ∈ row → Kept i := by
    have hmap := List.map_inj_left (l := row) (f := fun v => toValue (readCell v)) (g := id)
    rw [List.map_id] at hmap
    refine hmap.trans ⟨fun hall i hi => (toValue_cell (v := .int i) trivial).1 (hall (.int i) hi) i rfl, fun hall v hv => ?_⟩
    refine (toValue_cell (h v hv)).2 fun i hi => ?_
    exact hall i (hi ▸ hv)
  constructor
  · intro hrow
    have hlen : row.length = columns.length := by
      rw [← hrow]
      simp [readRow, writtenFields]
    exact ⟨hlen, hcells.1 (hread hlen ▸ hrow)⟩
  · rintro ⟨hlen, hkept⟩
    rw [hread hlen]
    exact hcells.2 hkept

/-- **Written rows come back exactly when they have the columns' width and their integers are
kept.** -/
theorem written_iff (K : Codec) (formatReal : UInt64 → List Char) {columns : List String} (hnodup : columns.Nodup)
    {rows : List Row} (h : ∀ row ∈ rows, ∀ v ∈ row, Plain v) :
    jsonRows (rowsToJson K formatReal columns rows) (columns.map String.toList) = .ok rows ↔
      ∀ row ∈ rows, row.length = columns.length ∧ ∀ i, .int i ∈ row → Kept i := by
  rw [jsonRows_written K formatReal hnodup h, Except.ok.injEq]
  have hmap := List.map_inj_left (l := rows) (f := readRow columns) (g := id)
  rw [List.map_id] at hmap
  refine hmap.trans ?_
  exact forall_congr' fun row => forall_congr' fun hrow => readRow_iff (h row hrow)

/-! ## Any body -/

/-- A member as it is to be read: under the name it denotes, with what its literal is to yield. -/
def Delivered (m : List Piece × Doc) (f : String × Json) : Prop :=
  (∀ s, denote m.1 = some s → f.1 = String.ofList s) ∧ Yields m.2 (toValue f.2)

/-- The body is accepted, its members as they are to be read, each cell the first of its name. -/
def Stored (objects : List (List (List Piece × Doc))) (body : List Char) : Prop :=
  ∃ read, bodyObjects body = .ok read ∧ List.Forall₂ (List.Forall₂ Delivered) objects read ∧
    ∀ columns, jsonRows body columns = .ok (read.map fun fields => columns.map (cellOf fields))

theorem delivered_iff (m : List Piece × Doc) :
    Delivered m (readPieces m.1, m.2.read) ↔ Unpaired m.1 ∧ Survives m.2 :=
  and_congr (readPieces_iff m.1) (yields_iff m.2)

theorem delivered_members (ms : List (List Piece × Doc)) :
    List.Forall₂ Delivered ms (readMembers ms) ↔ ∀ m ∈ ms, Unpaired m.1 ∧ Survives m.2 := by
  rw [readMembers_eq, List.forall₂_map_right_iff, List.forall₂_same]
  exact forall_congr' fun m => forall_congr' fun _ => delivered_iff m

/-- **A body of objects is stored exactly when each of its literals comes through.** -/
theorem stored_iff {v : Doc} {t : List Char} {objects : List (List (List Piece × Doc))} (h : Text v t)
    (hobjects : v.objects = some objects) :
    Stored objects t ↔ ∀ ms ∈ objects, ∀ m ∈ ms, Unpaired m.1 ∧ Survives m.2 := by
  have hbody := bodyObjects_text h hobjects
  have hmembers : List.Forall₂ (List.Forall₂ Delivered) objects (objects.map readMembers) ↔
      ∀ ms ∈ objects, ∀ m ∈ ms, Unpaired m.1 ∧ Survives m.2 := by
    rw [List.forall₂_map_right_iff, List.forall₂_same]
    exact forall_congr' fun ms => forall_congr' fun _ => delivered_members ms
  constructor
  · rintro ⟨read, hread, hdelivered, -⟩
    obtain rfl : objects.map readMembers = read := Except.ok.inj (hbody.symm.trans hread)
    exact hmembers.1 hdelivered
  · intro hall
    refine ⟨objects.map readMembers, hbody, hmembers.2 hall, fun columns => ?_⟩
    rw [jsonRows, hbody]
    rfl

/-- **Rows written under distinct columns come back exactly when they have the columns' width and
their integers are kept, and a body of objects is stored exactly when each of its literals comes
through.** -/
theorem json_bodies_faithful (K : Codec) (formatReal : UInt64 → List Char) :
    (∀ (columns : List String) (rows : List Row), columns.Nodup → (∀ row ∈ rows, ∀ v ∈ row, Plain v) →
      (jsonRows (rowsToJson K formatReal columns rows) (columns.map String.toList) = .ok rows ↔
        ∀ row ∈ rows, row.length = columns.length ∧ ∀ i, .int i ∈ row → Kept i)) ∧
    ∀ (v : Doc) (body : List Char) (objects : List (List (List Piece × Doc))), Text v body →
      v.objects = some objects →
      (Stored objects body ↔ ∀ ms ∈ objects, ∀ m ∈ ms, Unpaired m.1 ∧ Survives m.2) :=
  ⟨fun _ _ hnodup hplain => written_iff K formatReal hnodup hplain, fun _ _ _ htext hobjects => stored_iff htext hobjects⟩

/-- One row of NULL, 2^53 and a text comes back; a body with an escape and an integer is stored. -/
theorem json_bodies_faithful_row :
    jsonRows (rowsToJson Codec.ascii (fun _ => []) ["a", "b", "c"] [[.null, .int 9007199254740992, .text "\"x"]])
        (["a", "b", "c"].map String.toList) = .ok [[.null, .int 9007199254740992, .text "\"x"]] ∧
      Stored [[([.plain 'k' ⟨by decide, by decide, by decide⟩], .str [.short 'n' '\n' (by decide)])]]
        "\x7b\"k\": \"\\n\"\x7d".toList := by
  refine ⟨((json_bodies_faithful Codec.ascii fun _ => []).1 _ _ (by decide) ?_).2 ?_,
    ((json_bodies_faithful Codec.ascii fun _ => []).2 (.obj _) _ _ ?_ rfl).2 ?_⟩
  · simp [Plain]
  · intro row hrow
    obtain rfl := List.mem_singleton.1 hrow
    refine ⟨rfl, fun i hi => ?_⟩
    have hi' : i = 9007199254740992 := by simpa using hi
    subst hi'
    decide
  · have hvalue : Text (.str [.short 'n' '\n' (by decide)]) " \"\\n\"".toList :=
      .str (a := [' ']) (b := []) _ (by simp [Space]) (by simp [Space])
    have hmembers := @Text.obj [] [] [⟨[.plain 'k' ⟨by decide, by decide, by decide⟩], _, [], [], _⟩]
      (by simp [Space]) (by simp [Space]) (by simp [Space]) (by simpa using hvalue) (by simp)
    exact hmembers
  · simp [Survives, Unpaired, Piece.isSurrogate]

/-- 2^53 + 1 comes back as 2^53, a surrogate pair as two replacement characters, a nested array
as the empty text. -/
theorem json_bodies_corrupt :
    jsonRows (rowsToJson Codec.ascii (fun _ => []) ["id"] [[.int 9007199254740993]]) ["id".toList] ≠
        .ok [[.int 9007199254740993]] ∧
      jsonRows "\x7b\"a\":\"\\ud83d\\ude00\"\x7d".toList ["a".toList] = .ok [[.text "\uFFFD\uFFFD"]] ∧
      jsonRows "[\x7b\"a\":[1]\x7d]".toList ["a".toList] = .ok [[.text ""]] := by
  refine ⟨?_, by decide +kernel, by decide +kernel⟩
  decide +kernel

end Twill.Server.JsonBody
