/-
What the key strings tell apart (`exec.rs`: `value_key`, `composite_key`, `row_key`,
`group_key`).

A key is the tagged texts of the values, each ended by U+0001; a text value is written
as it is. `pieces` cuts it at the separators it may contain, and two keys are equal
exactly when the pieces are.
-/
import Twill.Lib.Except
import Twill.Lib.Terminated
import Twill.Relational

namespace Twill

/-- The character that ends a value in a key. -/
def separator : Char := '\x01'

/-- Decimal text of floats never contains the separator. -/
def Prims.Separated (P : Prims) : Prop := ∀ bits, separator ∉ (P.formatF32 bits).toList

/-- The tagged text of a value, cut at the separators in it. Only a text value can have more
than one piece; the tag stays with the first. -/
def Value.pieces (P : Prims) : Value → List (List Char)
  | .null => ["\x00null".toList]
  | .int i => ['i' :: (toString i).toList]
  | .real b => ['r' :: (toString b).toList]
  | .text s => ('t' :: s.toList).splitOn separator
  | .blob b => ['b' :: base64Chars b]
  | .vector v => ['v' :: (formatVector P v).toList]

/-- Two tuples that are the same, or do not fall into the same pieces. -/
def Apart (P : Prims) (a b : Row) : Prop := a = b ∨ a.flatMap (Value.pieces P) ≠ b.flatMap (Value.pieces P)

/-! ## The characters of the tagged texts -/

theorem separator_not_digit {c : Char} (h : c.isDigit = true) : c ≠ separator := by
  rintro rfl
  exact absurd h (by decide)

theorem separator_notMem_nat (n : Nat) : separator ∉ n.repr.toList := by
  intro h
  rw [Nat.toList_repr] at h
  exact separator_not_digit (Nat.isDigit_of_mem_toDigits (by decide) (by decide) h) rfl

theorem separator_notMem_int (i : Int) : separator ∉ i.repr.toList := by
  cases i with
  | ofNat n => exact separator_notMem_nat n
  | negSucc n =>
    have hrepr : (Int.negSucc n).repr.toList = '-' :: (n + 1).repr.toList := by simp [Int.repr]
    rw [hrepr, List.mem_cons, not_or]
    exact ⟨by decide, separator_notMem_nat (n + 1)⟩

theorem b64Char_eq (n : Nat) : ∃ h : n % 64 < b64Alphabet.length, b64Char n = b64Alphabet.get ⟨n % 64, h⟩ := by
  have hlen : b64Alphabet.length = 64 := by decide
  have h : n % 64 < b64Alphabet.length := hlen ▸ Nat.mod_lt n (by decide)
  exact ⟨h, List.getD_eq_getElem _ _ h⟩

theorem b64Char_ne_separator (n : Nat) : separator ≠ b64Char n := by
  have hall : separator ∉ b64Alphabet := by decide
  obtain ⟨h, heq⟩ := b64Char_eq n
  rw [heq]
  rintro hsep
  exact hall (hsep ▸ List.get_mem b64Alphabet ⟨n % 64, h⟩)

theorem separator_notMem_base64 (b : List UInt8) : separator ∉ base64Chars b := by
  have hpad : separator ≠ '=' := by decide
  fun_induction base64Chars b with
  | case1 => simp
  | case2 a n => simp [b64Char_ne_separator, hpad]
  | case3 a b n => simp [b64Char_ne_separator, hpad]
  | case4 a b c rest n ih => simp [b64Char_ne_separator, ih]

theorem separator_notMem_vector {P : Prims} (hP : P.Separated) (v : List UInt32) :
    separator ∉ (formatVector P v).toList := by
  have hjoin (l : List UInt32) : separator ∉ (joinWith "," (l.map P.formatF32)).toList := by
    induction l with
    | nil => simp [joinWith]
    | cons x l ih =>
      cases l with
      | nil => simpa [joinWith] using hP x
      | cons y l =>
        simp only [List.map_cons, joinWith, String.toList_append, List.mem_append, not_or] at ih ⊢
        exact ⟨⟨hP x, by decide⟩, ih⟩
  simp only [formatVector, String.toList_append, List.mem_append, not_or]
  exact ⟨⟨by decide, hjoin v⟩, by decide⟩

/-! ## Keys and pieces -/

theorem pieces_separated {P : Prims} (hP : P.Separated) (v : Value) :
    ∀ piece ∈ v.pieces P, separator ∉ piece := by
  have hsingle {c : Char} {s : List Char} (hc : separator ≠ c) (hs : separator ∉ s) :
      ∀ piece ∈ [c :: s], separator ∉ piece := by
    simp [hc, hs]
  cases v with
  | null => exact hsingle (by decide) (by decide)
  | int i => exact hsingle (by decide) (separator_notMem_int i.toInt)
  | real b => exact hsingle (by decide) (separator_notMem_nat b.toNat)
  | text s => exact fun piece h => Terminated.not_mem_of_mem_splitOn h
  | blob b => exact hsingle (by decide) (separator_notMem_base64 b)
  | vector v => exact hsingle (by decide) (separator_notMem_vector hP v)

/-- The pieces of a value, each ended, are its tagged text, ended. -/
theorem join_pieces (P : Prims) (v : Value) :
    Terminated.join separator (v.pieces P) = (valueKey P v).toList ++ [separator] := by
  cases v with
  | text s =>
    rw [Value.pieces, Terminated.join_splitOn]
    simp [valueKey]
  | _ => simp [Value.pieces, valueKey, base64Encode]

theorem toList_rowKey (P : Prims) (a : Row) :
    (rowKey P a).toList = Terminated.join separator (a.flatMap (Value.pieces P)) := by
  have hfold (k : String) : (a.foldl (fun k v => k ++ valueKey P v ++ "\x01") k).toList =
      k.toList ++ Terminated.join separator (a.flatMap (Value.pieces P)) := by
    induction a generalizing k with
    | nil => simp
    | cons v a ih =>
      rw [List.foldl_cons, ih, List.flatMap_cons, Terminated.join_append, join_pieces]
      simp [separator]
  exact hfold ""

/-- **Keys are equal exactly when the pieces are.** -/
theorem rowKey_eq_iff {P : Prims} (hP : P.Separated) (a b : Row) :
    rowKey P a = rowKey P b ↔ a.flatMap (Value.pieces P) = b.flatMap (Value.pieces P) := by
  have hseparated (c : Row) : ∀ piece ∈ c.flatMap (Value.pieces P), separator ∉ piece := by
    intro piece h
    obtain ⟨v, -, hv⟩ := List.mem_flatMap.1 h
    exact pieces_separated hP v piece hv
  constructor
  · intro h
    refine Terminated.join_injective (hseparated a) (hseparated b) ?_
    rw [← toList_rowKey, ← toList_rowKey, h]
  · intro h
    rw [← String.toList_inj, toList_rowKey, toList_rowKey, h]

theorem compositeKey_eq_rowKey (P : Prims) (vals : Row) (cols : List Nat) :
    compositeKey P vals cols = rowKey P (cols.map vals.cell) := by
  rw [compositeKey, rowKey, List.foldl_map]

theorem groupKey_eq_rowKey {E : Env} {groupBy : List Expr} {ctx : EvalCtx} {vals : Row}
    (h : groupBy.mapM (fun e => eval E e ctx) = .ok vals) : groupKey E groupBy ctx = .ok (rowKey E.prims vals) := by
  have hfold (k : String) : groupBy.foldlM (fun k e => do return k ++ valueKey E.prims (← eval E e ctx) ++ "\x01") k =
      (.ok (vals.foldl (fun k v => k ++ valueKey E.prims v ++ "\x01") k) : Res String) := by
    induction groupBy generalizing k vals with
    | nil =>
      obtain rfl : [] = vals := Except.ok.inj h
      rfl
    | cons e groupBy ih =>
      rw [Except.mapM_cons_eq] at h
      obtain ⟨v, hv, h⟩ := Except.bind_eq_ok.1 h
      obtain ⟨rest, hrest, h⟩ := Except.bind_eq_ok.1 h
      obtain rfl : v :: rest = vals := Except.ok.inj h
      rw [List.foldlM_cons, hv]
      exact ih hrest _
  exact hfold ""

/-! ## When keys are faithful -/

/-- The keys of two tuples are equal exactly when the tuples are: as rows, as the key columns
of rows, and as the values of `GROUP BY` expressions. -/
structure Faithful (P : Prims) (a b : Row) : Prop where
  row : rowKey P a = rowKey P b ↔ a = b
  composite : ∀ x y cols, cols.map (Row.cell x) = a → cols.map (Row.cell y) = b →
    (compositeKey P x cols = compositeKey P y cols ↔ a = b)
  group : ∀ E groupBy xctx yctx, E.prims = P → groupBy.mapM (fun e => eval E e xctx) = .ok a →
    groupBy.mapM (fun e => eval E e yctx) = .ok b → (groupKey E groupBy xctx = groupKey E groupBy yctx ↔ a = b)

theorem rowKey_inj_iff {P : Prims} (hP : P.Separated) (a b : Row) :
    (rowKey P a = rowKey P b ↔ a = b) ↔ Apart P a b := by
  rw [rowKey_eq_iff hP, Apart]
  constructor
  · intro h
    by_cases hpieces : a.flatMap (Value.pieces P) = b.flatMap (Value.pieces P)
    · exact .inl (h.1 hpieces)
    · exact .inr hpieces
  · rintro (rfl | hpieces)
    · simp
    · exact ⟨fun h => absurd h hpieces, fun h => by rw [h]⟩

theorem bare_separated : Env.bare.prims.Separated := by
  intro bits
  change separator ∉ "".toList
  decide

/-- A value that is one piece whose text tells it: no separator in a text, and no vector. -/
def Value.Clean : Value → Prop
  | .text s => separator ∉ s.toList
  | .vector _ => False
  | _ => True

theorem b64Char_inj {m n : Nat} (h : b64Char m = b64Char n) : m % 64 = n % 64 := by
  have hnodup : b64Alphabet.Nodup := by decide
  obtain ⟨hm, hmeq⟩ := b64Char_eq m
  obtain ⟨hn, hneq⟩ := b64Char_eq n
  rw [hmeq, hneq] at h
  exact congrArg Fin.val (hnodup.injective_get h)

theorem b64Char_ne_pad (n : Nat) : b64Char n ≠ '=' := by
  have hall : '=' ∉ b64Alphabet := by decide
  obtain ⟨h, heq⟩ := b64Char_eq n
  rw [heq]
  rintro hpad
  exact hall (hpad ▸ List.get_mem b64Alphabet ⟨n % 64, h⟩)

/-- Base64 can be read back. -/
theorem base64Chars_injective {a b : List UInt8} (h : base64Chars a = base64Chars b) : a = b := by
  have hbyte (x : UInt8) : x.toNat < 256 := x.toNat_lt
  induction a using base64Chars.induct generalizing b with
  | case1 => rcases b with _ | ⟨x, _ | ⟨y, _ | ⟨z, b⟩⟩⟩ <;> simp [base64Chars] at h ⊢
  | case2 a =>
    rcases b with _ | ⟨x, _ | ⟨y, _ | ⟨z, b⟩⟩⟩
    · simp [base64Chars] at h
    · simp only [base64Chars, List.cons.injEq, and_true] at h
      have h1 := b64Char_inj h.1
      have h2 := b64Char_inj h.2
      have ha := hbyte a
      have hx := hbyte x
      have heq : a.toNat = x.toNat := by omega
      rw [UInt8.toNat_inj.1 heq]
    · simp [base64Chars, (b64Char_ne_pad _).symm] at h
    · simp [base64Chars, (b64Char_ne_pad _).symm] at h
  | case3 a c =>
    rcases b with _ | ⟨x, _ | ⟨y, _ | ⟨z, b⟩⟩⟩
    · simp [base64Chars] at h
    · simp [base64Chars, b64Char_ne_pad] at h
    · simp only [base64Chars, List.cons.injEq, and_true] at h
      have h1 := b64Char_inj h.1
      have h2 := b64Char_inj h.2.1
      have h3 := b64Char_inj h.2.2
      have ha := hbyte a
      have hc := hbyte c
      have hx := hbyte x
      have hy := hbyte y
      have heq : a.toNat = x.toNat := by omega
      have heq' : c.toNat = y.toNat := by omega
      rw [UInt8.toNat_inj.1 heq, UInt8.toNat_inj.1 heq']
    · simp [base64Chars, (b64Char_ne_pad _).symm] at h
  | case4 a c d rest ih =>
    rcases b with _ | ⟨x, _ | ⟨y, _ | ⟨z, b⟩⟩⟩
    · simp [base64Chars] at h
    · simp [base64Chars, b64Char_ne_pad] at h
    · simp [base64Chars, b64Char_ne_pad] at h
    · simp only [base64Chars, List.cons.injEq] at h
      have h1 := b64Char_inj h.1
      have h2 := b64Char_inj h.2.1
      have h3 := b64Char_inj h.2.2.1
      have h4 := b64Char_inj h.2.2.2.1
      have ha := hbyte a
      have hc := hbyte c
      have hd := hbyte d
      have hx := hbyte x
      have hy := hbyte y
      have hz := hbyte z
      have heq : a.toNat = x.toNat := by omega
      have heq' : c.toNat = y.toNat := by omega
      have heq'' : d.toNat = z.toNat := by omega
      rw [UInt8.toNat_inj.1 heq, UInt8.toNat_inj.1 heq', UInt8.toNat_inj.1 heq'', ih h.2.2.2.2]

theorem pieces_clean {P : Prims} {v : Value} (h : v.Clean) : ∃ piece, v.pieces P = [piece] := by
  cases v with
  | text s =>
    have hs : separator ∉ 't' :: s.toList := by
      rw [List.mem_cons, not_or]
      exact ⟨by decide, h⟩
    exact ⟨_, List.splitOn_eq_singleton hs⟩
  | vector v => exact absurd h id
  | _ => exact ⟨_, rfl⟩

theorem valueKey_of_pieces {P : Prims} {v w : Value} (h : v.pieces P = w.pieces P) : valueKey P v = valueKey P w := by
  have hjoin := congrArg (Terminated.join separator) h
  rw [join_pieces, join_pieces] at hjoin
  exact String.toList_inj.1 (List.append_cancel_right hjoin)

/-- The text of a clean value tells it. -/
theorem valueKey_injective {P : Prims} {v w : Value} (hv : v.Clean) (hw : w.Clean) (h : valueKey P v = valueKey P w) :
    v = w := by
  have hlist := congrArg String.toList h
  cases v <;> cases w <;> simp [valueKey, base64Encode] at hlist
  case null.null => rfl
  case int.int i j => rw [Int64.toInt_inj.1 (Int.repr_injective (String.toList_inj.1 hlist))]
  case real.real b c => rw [UInt64.toNat_inj.1 (Nat.repr_injective (String.toList_inj.1 hlist))]
  case text.text s t => rw [String.toList_inj.1 hlist]
  case blob.blob b c => rw [base64Chars_injective hlist]
  all_goals exact absurd hv id

/-- **Tuples of clean values are always apart.** -/
theorem apart_of_clean {P : Prims} {a b : Row} (ha : ∀ v ∈ a, v.Clean) (hb : ∀ v ∈ b, v.Clean) : Apart P a b := by
  by_cases hpieces : a.flatMap (Value.pieces P) = b.flatMap (Value.pieces P)
  · refine .inl ?_
    induction a generalizing b with
    | nil =>
      cases b with
      | nil => rfl
      | cons w b =>
        obtain ⟨piece, hw⟩ := pieces_clean (P := P) (hb w List.mem_cons_self)
        simp [hw] at hpieces
    | cons v a ih =>
      obtain ⟨piece, hv⟩ := pieces_clean (P := P) (ha v List.mem_cons_self)
      cases b with
      | nil => simp [hv] at hpieces
      | cons w b =>
        obtain ⟨piece', hw⟩ := pieces_clean (P := P) (hb w List.mem_cons_self)
        rw [List.flatMap_cons, List.flatMap_cons, hv, hw] at hpieces
        obtain ⟨hpiece, hrest⟩ := List.cons.inj hpieces
        have hvw : v = w := by
          refine valueKey_injective (P := P) (ha v List.mem_cons_self) (hb w List.mem_cons_self) (valueKey_of_pieces ?_)
          rw [hv, hw, hpiece]
        rw [hvw, ih (fun u hu => ha u (List.mem_cons_of_mem v hu)) (fun u hu => hb u (List.mem_cons_of_mem w hu)) hrest]
  · exact .inr hpieces

/-! ## What removing duplicates keeps -/

section
variable {α : Type} (key : α → String)

/-- One step of `dedupBy`. -/
def keepFirst (acc : List String × List α) (a : α) : List String × List α :=
  if acc.1.contains (key a) then acc else (key a :: acc.1, acc.2 ++ [a])

/-- The keys met are those of the kept elements. -/
def KeysKept (acc : List String × List α) : Prop := ∀ k ∈ acc.1, ∃ b ∈ acc.2, key b = k

theorem keepFirst_kept {acc : List String × List α} (h : KeysKept key acc) (a : α) :
    KeysKept key (keepFirst key acc a) ∧ (∀ k ∈ acc.1, k ∈ (keepFirst key acc a).1) ∧
      key a ∈ (keepFirst key acc a).1 := by
  unfold keepFirst
  split
  · rename_i hmem
    exact ⟨h, fun k hk => hk, List.contains_iff_mem.1 hmem⟩
  · refine ⟨fun k hk => ?_, fun k hk => List.mem_cons_of_mem _ hk, List.mem_cons_self⟩
    rcases List.mem_cons.1 hk with rfl | hk
    · exact ⟨a, by simp, rfl⟩
    · obtain ⟨b, hb, hkey⟩ := h k hk
      exact ⟨b, List.mem_append_left _ hb, hkey⟩

theorem foldl_keepFirst (l : List α) {acc : List String × List α} (h : KeysKept key acc) :
    KeysKept key (l.foldl (keepFirst key) acc) ∧ (∀ k ∈ acc.1, k ∈ (l.foldl (keepFirst key) acc).1) ∧
      ∀ a ∈ l, key a ∈ (l.foldl (keepFirst key) acc).1 := by
  induction l generalizing acc with
  | nil => exact ⟨h, fun k hk => hk, by simp⟩
  | cons x l ih =>
    obtain ⟨hkept, hgrows, hx⟩ := keepFirst_kept key h x
    obtain ⟨hkept', hgrows', hall⟩ := ih hkept
    refine ⟨hkept', fun k hk => hgrows' k (hgrows k hk), fun a ha => ?_⟩
    rcases List.mem_cons.1 ha with rfl | ha
    · exact hgrows' _ hx
    · exact hall a ha

/-- Every key stays. -/
theorem exists_mem_dedupBy {l : List α} {a : α} (ha : a ∈ l) : ∃ b ∈ dedupBy key l, key b = key a := by
  have hstart : KeysKept key (([], []) : List String × List α) := fun k hk => absurd hk (by simp)
  obtain ⟨hkept, -, hall⟩ := foldl_keepFirst key l hstart
  exact hkept _ (hall a ha)

theorem mem_of_mem_dedupBy {l : List α} {b : α} (hb : b ∈ dedupBy key l) : b ∈ l := by
  have hfold (l : List α) (acc : List String × List α) (h : b ∈ (l.foldl (keepFirst key) acc).2) :
      b ∈ acc.2 ∨ b ∈ l := by
    induction l generalizing acc with
    | nil => exact .inl h
    | cons x l ih =>
      rcases ih _ h with h | h
      · unfold keepFirst at h
        split at h
        · exact .inl h
        · rcases List.mem_append.1 h with h | h
          · exact .inl h
          · exact .inr (List.mem_singleton.1 h ▸ List.mem_cons_self)
      · exact .inr (List.mem_cons_of_mem x h)
  exact (hfold l ([], []) hb).resolve_left (by simp)

end

/-- **Distinct rows are kept.** `DISTINCT` loses no row when the rows are pairwise apart. -/
theorem mem_dedupRows {P : Prims} (hP : P.Separated) {rows : List Row}
    (hapart : ∀ a ∈ rows, ∀ b ∈ rows, Apart P a b) {r : Row} : r ∈ dedupRows P rows ↔ r ∈ rows := by
  refine ⟨mem_of_mem_dedupBy _, fun hr => ?_⟩
  obtain ⟨b, hb, hkey⟩ := exists_mem_dedupBy (rowKey P) hr
  have hinj := (rowKey_inj_iff hP b r).2 (hapart b (mem_of_mem_dedupBy _ hb) r hr)
  rwa [← hinj.1 hkey]

end Twill
