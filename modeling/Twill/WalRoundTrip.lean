/-
A log record is read back as the operation it was written for (`wal.rs`).

Every field's reader takes exactly what its writer wrote (`ByteReader.Reads`), so a record is
read back field by field in the order of the source; a record of a table that stops after its
columns, or after its foreign keys, is one whose next section is asked for at its end.
-/
import Twill.WalBytes

namespace Twill

open ByteReader (Reads toLe fromLe times)

namespace WalBytes

/-! ## Fields -/

theorem reads_u8 (b : UInt8) : Reads u8 [b] b := (Reads.take _ [b]).map _

/-- A tag, and what it selects. -/
theorem reads_tag {β : Type} {f : UInt8 → Cursor β} {tag : UInt8} {bytes : List UInt8} {b : β} (hf : Reads (f tag) bytes b) :
    Reads (u8 >>= f) (tag :: bytes) b := (reads_u8 tag).bind hf

theorem reads_u32_mod (n : ℕ) : Reads u32 (putU32 n) (n % 2 ^ 32) := Reads.number _ 4 n

theorem reads_u32 {n : ℕ} (hn : n < 2 ^ 32) : Reads u32 (putU32 n) n := by
  have hread := reads_u32_mod n
  rwa [Nat.mod_eq_of_lt hn] at hread

theorem reads_u64 {n : ℕ} (hn : n < 2 ^ 64) : Reads u64 (putU64 n) n := by
  have hread : Reads u64 (putU64 n) (n % 2 ^ 64) := Reads.number _ 8 n
  rwa [Nat.mod_eq_of_lt hn] at hread

/-- A text is short enough for its length to be written. -/
def ShortText (s : String) : Prop := (textBytes s).length < 2 ^ 32

theorem reads_take (bytes : List UInt8) : Reads (take bytes.length) bytes bytes := Reads.take _ bytes

theorem fromUTF8_textBytes (s : String) : String.fromUTF8? ⟨(textBytes s).toArray⟩ = some s := by
  have hbytes : (⟨(textBytes s).toArray⟩ : ByteArray) = s.toByteArray := rfl
  rw [hbytes, String.fromUTF8?, dif_pos s.isValidUTF8]
  rfl

theorem reads_fromUtf8 (s : String) : Reads (fromUtf8 (textBytes s)) [] s := by
  rw [fromUtf8, fromUTF8_textBytes]
  exact Reads.pure s

theorem reads_str {s : String} (hs : ShortText s) : Reads str (putStr s) s :=
  (reads_u32 hs).bind ((reads_take (textBytes s)).bind_nil (reads_fromUtf8 s))

theorem reads_optStr {d : Option String} (hd : ∀ s ∈ d, ShortText s) : Reads optStr (putOptStr d) d := by
  cases d with
  | none => exact reads_tag (Reads.pure none)
  | some s => exact reads_tag (Reads.last (reads_str (hd s rfl)) some)

/-- A list whose length can be written, of items that are read back. -/
theorem reads_list {α : Type} {r : Cursor α} {put : α → List UInt8} {items : List α} (hlength : items.length < 2 ^ 32)
    (h : ∀ a ∈ items, Reads r (put a) a) : Reads (list r) (putList put items) items :=
  (reads_u32 hlength).bind (Reads.times h)

/-- What a value takes fits the counts. -/
def ShortValue : Value → Prop
  | .text s => ShortText s
  | .blob b => b.length < 2 ^ 32
  | .vector v => v.length < 2 ^ 32
  | _ => True

theorem reads_value {v : Value} (hv : ShortValue v) : Reads value (putValue v) v := by
  cases v with
  | null => exact reads_tag (Reads.pure Value.null)
  | int i =>
    have hread := Reads.last (reads_u64 i.toUInt64.toNat_lt) fun n => Value.int (UInt64.ofNat n).toInt64
    rw [UInt64.ofNat_toNat, Int64.toInt64_toUInt64] at hread
    exact reads_tag hread
  | real bits =>
    have hread := Reads.last (reads_u64 bits.toNat_lt) fun n => Value.real (UInt64.ofNat n)
    rw [UInt64.ofNat_toNat] at hread
    exact reads_tag hread
  | text s => exact reads_tag (Reads.last (reads_str hv) Value.text)
  | blob b => exact reads_tag ((reads_u32 hv).bind (Reads.last (reads_take b) Value.blob))
  | vector v =>
    have hitem (x : UInt32) : Reads (UInt32.ofNat <$> u32) (putU32 x.toNat) x := by
      have hread := (reads_u32 x.toNat_lt).map UInt32.ofNat
      rwa [UInt32.ofNat_toNat] at hread
    exact reads_tag (Reads.last (reads_list hv fun x _ => hitem x) Value.vector)

theorem reads_coltype (ty : ColumnType) : Reads coltype (putColtype ty) ty := by
  cases ty with
  | vector dim =>
    have hread := Reads.last (reads_u32 dim.toNat_lt) fun n => ColumnType.vector (UInt32.ofNat n)
    rw [UInt32.ofNat_toNat] at hread
    exact reads_tag hread
  | _ => exact reads_tag (Reads.pure _)

theorem flags_read (c : Column) : (columnFlags c &&& 1 ≠ 0 ↔ c.primaryKey) ∧ (columnFlags c &&& 2 ≠ 0 ↔ c.notNull) ∧
    (columnFlags c &&& 4 ≠ 0 ↔ c.unique) ∧ (columnFlags c &&& 8 ≠ 0 ↔ c.autoincrement) := by
  unfold columnFlags
  cases c.primaryKey <;> cases c.notNull <;> cases c.unique <;> cases c.autoincrement <;> decide

theorem reads_column {c : Column} (hname : ShortText c.name) : Reads column (putColumn c) { c with defaultSql := none } := by
  obtain ⟨hprimary, hnull, hunique, hauto⟩ := flags_read c
  have hread : Reads column (putColumn c) _ :=
    (reads_str hname).bind ((reads_coltype c.ty).bind (Reads.last (reads_u8 (columnFlags c)) _))
  simp only [hprimary, hnull, hunique, hauto, Bool.decide_coe] at hread
  exact hread

structure ShortForeignKey (fk : ForeignKey) : Prop where
  name : ShortText fk.name
  foreignTable : ShortText fk.foreignTable
  columnCount : fk.columns.length < 2 ^ 32
  columns : ∀ c ∈ fk.columns, ShortText c
  foreignCount : fk.foreignColumns.length < 2 ^ 32
  foreignColumns : ∀ c ∈ fk.foreignColumns, ShortText c

theorem reads_foreignKey {fk : ForeignKey} (h : ShortForeignKey fk) : Reads foreignKey (putForeignKey fk) fk :=
  (reads_str h.name).bind ((reads_str h.foreignTable).bind
    ((reads_list h.columnCount fun c hc => reads_str (h.columns c hc)).bind
      (Reads.last (reads_list h.foreignCount fun c hc => reads_str (h.foreignColumns c hc)) _)))

/-! ## Tables -/

structure ShortColumn (c : Column) : Prop where
  name : ShortText c.name
  defaultSql : ∀ s ∈ c.defaultSql, ShortText s

structure ShortTable (schema : TableSchema) : Prop where
  name : ShortText schema.name
  columnCount : schema.columns.length < 2 ^ 32
  columns : ∀ c ∈ schema.columns, ShortColumn c
  foreignKeyCount : schema.foreignKeys.length < 2 ^ 32
  foreignKeys : ∀ fk ∈ schema.foreignKeys, ShortForeignKey fk
  checkCount : schema.checks.length < 2 ^ 32
  checks : ∀ s ∈ schema.checks, ShortText s
  uniqueCount : schema.uniques.length < 2 ^ 32
  uniques : ∀ u ∈ schema.uniques, u.length < 2 ^ 32 ∧ ∀ s ∈ u, ShortText s

/-- A column as its section has it, without the DEFAULT. -/
def bare (c : Column) : Column := { c with defaultSql := none }

/-- The columns of a record, written without their DEFAULTs. -/
theorem reads_columns {columns : List Column} (hcount : columns.length < 2 ^ 32) (h : ∀ c ∈ columns, ShortColumn c) :
    Reads decodeColumns (putList putColumn columns) (columns.map bare) := by
  have hitems : ∀ columns : List Column, (∀ c ∈ columns, ShortColumn c) →
      Reads (times columns.length column) (columns.flatMap putColumn) (columns.map bare) := by
    intro columns
    induction columns with
    | nil => exact fun _ => Reads.pure []
    | cons c columns ih =>
      intro h
      have hrest := ih fun d hd => h d (List.mem_cons_of_mem c hd)
      exact (reads_column (h c List.mem_cons_self).name).bind (Reads.last hrest fun rest => bare c :: rest)
  exact (reads_u32 hcount).bind (hitems columns h)

theorem fillDefaults_bare (columns : List Column) :
    fillDefaults (columns.map bare) (columns.map Column.defaultSql) = columns := by
  induction columns with
  | nil => rfl
  | cons c columns ih =>
    refine congrArg₂ List.cons ?_ ih
    obtain ⟨name, ty, primaryKey, notNull, unique, autoincrement, defaultSql⟩ := c
    cases defaultSql <;> rfl

theorem putList_ne_nil {α : Type} (put : α → List UInt8) (items : List α) : putList put items ≠ [] := by
  refine List.append_ne_nil_of_left_ne_nil ?_ _
  intro hnil
  have hlength : (putU32 items.length).length = 4 := ByteReader.length_toLe 4 _
  rw [hnil] at hlength
  cases hlength

theorem reads_defaults {columns : List Column} (hcount : columns.length < 2 ^ 32) (h : ∀ c ∈ columns, ShortColumn c) :
    Reads (list optStr) (putList (fun c : Column => putOptStr c.defaultSql) columns) (columns.map Column.defaultSql) := by
  have hread : Reads (list optStr) (putList putOptStr (columns.map Column.defaultSql)) (columns.map Column.defaultSql) := by
    refine reads_list (by rwa [List.length_map]) fun d hd => ?_
    obtain ⟨c, hc, rfl⟩ := List.mem_map.1 hd
    exact reads_optStr (h c hc).defaultSql
  rwa [putList, List.length_map, List.flatMap_map] at hread

theorem reads_strList {items : List String} (hcount : items.length < 2 ^ 32) (h : ∀ s ∈ items, ShortText s) :
    Reads decodeStrList (putList putStr items) items := reads_list hcount fun s hs => reads_str (h s hs)

/-- The last section of a table's record fills the DEFAULTs in. -/
theorem reads_extras {columns : List Column} {checks : List String} {uniques : List (List String)}
    (hcount : columns.length < 2 ^ 32) (hcolumns : ∀ c ∈ columns, ShortColumn c) (hcheckCount : checks.length < 2 ^ 32)
    (hchecks : ∀ s ∈ checks, ShortText s) (huniqueCount : uniques.length < 2 ^ 32)
    (huniques : ∀ u ∈ uniques, u.length < 2 ^ 32 ∧ ∀ s ∈ u, ShortText s) :
    Reads (decodeTableExtras (columns.map bare)) (putExtras columns checks uniques) (columns, checks, uniques) := by
  refine Reads.not_atEnd (List.append_ne_nil_of_left_ne_nil (putList_ne_nil _ _) _) ?_
  have hlast := Reads.last (reads_list huniqueCount fun u hu => reads_strList (huniques u hu).1 (huniques u hu).2)
    fun uniques => (fillDefaults (columns.map bare) (columns.map Column.defaultSql), checks, uniques)
  rw [fillDefaults_bare] at hlast
  refine (reads_defaults hcount hcolumns).bind ?_
  refine (reads_strList hcheckCount hchecks).bind ?_
  rw [fillDefaults_bare]
  exact hlast

theorem reads_foreignKeys {schema : TableSchema} (h : ShortTable schema) :
    Reads decodeForeignKeys (putList putForeignKey schema.foreignKeys) schema.foreignKeys :=
  Reads.not_atEnd (putList_ne_nil _ _) (reads_list h.foreignKeyCount fun fk hfk => reads_foreignKey (h.foreignKeys fk hfk))

/-- What is read of a table's record after its columns. -/
def decodeTail (name : String) (columns : List Column) : Cursor WalOp := do
  let foreignKeys ← decodeForeignKeys
  let (columns, checks, uniques) ← decodeTableExtras columns
  return .createTable { name, columns, foreignKeys, checks, uniques, rlsEnabled := false, policies := [] }

theorem decodeOp_putTable {schema : TableSchema} (h : ShortTable schema) (rest : List UInt8) :
    decodeOp (putTable schema ++ rest) = decodeTail schema.name (schema.columns.map bare) rest := by
  have htag : decodeOp (putTable schema ++ rest) =
      decodeCreate (putStr schema.name ++ (putList putColumn schema.columns ++ rest)) := by
    rw [putTable, List.cons_append, List.append_assoc]
    rfl
  rw [htag, decodeCreate, (reads_str h.name).run_bind, (reads_columns h.columnCount h.columns).run_bind, decodeTail]

/-- A table that replay finds as it was: its policies and the RLS switch are operations of
their own. -/
def Fresh (schema : TableSchema) : Prop := schema.rlsEnabled = false ∧ schema.policies = []

theorem decode_table {schema : TableSchema} (h : ShortTable schema) (hfresh : Fresh schema) :
    WalOp.decode (WalOp.createTable schema).encode = .ok (.createTable schema) := by
  obtain ⟨hrls, hpolicies⟩ := hfresh
  have hextras := reads_extras h.columnCount h.columns h.checkCount h.checks h.uniqueCount h.uniques
  have hread : Reads (decodeTail schema.name (schema.columns.map bare))
      (putList putForeignKey schema.foreignKeys ++ putExtras schema.columns schema.checks schema.uniques)
      (.createTable { schema with rlsEnabled := false, policies := [] }) :=
    (reads_foreignKeys h).bind (Reads.last hextras fun p => WalOp.createTable
      { name := schema.name, columns := p.1, foreignKeys := schema.foreignKeys, checks := p.2.1, uniques := p.2.2,
        rlsEnabled := false, policies := [] })
  have hall := hread []
  rw [List.append_nil] at hall
  rw [WalOp.decode, WalOp.encode, decodeOp_putTable h, hall, ← hrls, ← hpolicies]
  rfl

/-- A record cut after the columns has no foreign keys, and no extras. -/
theorem decode_cut_columns {schema : TableSchema} (h : ShortTable schema) (hfresh : Fresh schema) :
    WalOp.decode (putTable schema) =
      .ok (.createTable { schema with columns := schema.columns.map bare, foreignKeys := [], checks := [], uniques := [] }) := by
  obtain ⟨hrls, hpolicies⟩ := hfresh
  have hread := decodeOp_putTable h []
  rw [List.append_nil] at hread
  rw [WalOp.decode, hread, hrls, hpolicies]
  rfl

/-- A record cut after the foreign keys has no extras. -/
theorem decode_cut_foreignKeys {schema : TableSchema} (h : ShortTable schema) (hfresh : Fresh schema) :
    WalOp.decode (putTable schema ++ putList putForeignKey schema.foreignKeys) =
      .ok (.createTable { schema with columns := schema.columns.map bare, checks := [], uniques := [] }) := by
  obtain ⟨hrls, hpolicies⟩ := hfresh
  have hkeys := (reads_foreignKeys h).run_bind (fun foreignKeys => do
    let (columns, checks, uniques) ← decodeTableExtras (schema.columns.map bare)
    return WalOp.createTable { name := schema.name, columns, foreignKeys, checks, uniques, rlsEnabled := false, policies := [] })
    []
  rw [List.append_nil] at hkeys
  rw [WalOp.decode, decodeOp_putTable h, decodeTail, hkeys, hrls, hpolicies]
  rfl

/-! ## Operations -/

structure ShortPolicy (policy : Policy) : Prop where
  name : ShortText policy.name
  roleCount : policy.roles.length < 2 ^ 32
  roles : ∀ role ∈ policy.roles, ShortText role
  using_ : ∀ s ∈ policy.using_, ShortText s
  check : ∀ s ∈ policy.check, ShortText s

structure ShortIndex (d : IndexDef) : Prop where
  name : ShortText d.name
  table : ShortText d.table
  column : ShortText d.column
  m : d.params.m < 2 ^ 32
  efConstruction : d.params.efConstruction < 2 ^ 32
  efSearch : d.params.efSearch < 2 ^ 32

theorem metric_fromTag (metric : Metric) : Metric.fromTag metric.tag = metric := by cases metric <;> rfl

theorem command_fromTag (command : PolicyCommand) : PolicyCommand.fromTag command.tag = command := by
  cases command <;> rfl

/-- The definition with its parameters cut to 32 bits. -/
def truncated (d : IndexDef) : IndexDef :=
  { d with params := { d.params with
      m := d.params.m % 2 ^ 32, efConstruction := d.params.efConstruction % 2 ^ 32, efSearch := d.params.efSearch % 2 ^ 32 } }

theorem reads_createIndex {d : IndexDef} (hname : ShortText d.name) (htable : ShortText d.table) (hcolumn : ShortText d.column) :
    Reads decodeOp (WalOp.createIndex d).encode (.createIndex (truncated d)) := by
  obtain ⟨name, table, column, m, efConstruction, efSearch, metric⟩ := d
  have hmetric := Reads.last (reads_u8 metric.tag) fun t => WalOp.createIndex
    { name, table, column, params :=
      { m := m % 2 ^ 32, efConstruction := efConstruction % 2 ^ 32, efSearch := efSearch % 2 ^ 32, metric := Metric.fromTag t } }
  rw [metric_fromTag] at hmetric
  exact reads_tag ((reads_str hname).bind ((reads_str htable).bind ((reads_str hcolumn).bind
    ((reads_u32_mod m).bind ((reads_u32_mod efConstruction).bind ((reads_u32_mod efSearch).bind hmetric))))))

theorem truncated_eq_iff (d : IndexDef) :
    truncated d = d ↔ d.params.m < 2 ^ 32 ∧ d.params.efConstruction < 2 ^ 32 ∧ d.params.efSearch < 2 ^ 32 := by
  obtain ⟨name, table, column, m, efConstruction, efSearch, metric⟩ := d
  simp only [truncated, IndexDef.mk.injEq, IndexParams.mk.injEq, true_and, and_true]
  refine and_congr ?_ (and_congr ?_ ?_) <;> omega

theorem reads_createPolicy {table : String} {policy : Policy} (htable : ShortText table) (h : ShortPolicy policy) :
    Reads decodeOp (WalOp.createPolicy table policy).encode (.createPolicy table policy) := by
  obtain ⟨name, command, roles, using_, check⟩ := policy
  have hcheck := Reads.last (reads_optStr h.check) fun check => WalOp.createPolicy table
    { name, command := PolicyCommand.fromTag command.tag, roles, using_, check }
  rw [command_fromTag] at hcheck
  refine reads_tag ((reads_str htable).bind ((reads_str h.name).bind (reads_tag
    ((reads_strList h.roleCount h.roles).bind ((reads_optStr h.using_).bind ?_)))))
  rw [command_fromTag]
  exact hcheck

theorem reads_alterAddColumn {table : String} {c : Column} (htable : ShortText table) (h : ShortColumn c) :
    Reads decodeOp (WalOp.alterAddColumn table c).encode (.alterAddColumn table c) := by
  have hone : ∀ d ∈ [c], ShortColumn d := fun d hd => (List.mem_singleton.1 hd) ▸ h
  have hcount : [c].length < 2 ^ 32 := by simp
  have hextras : Reads (decodeTableExtras ([c].map bare)) (putExtras [c] [] []) ([c], [], []) :=
    reads_extras hcount hone (by decide) (by simp) (by decide) (by simp)
  exact reads_tag ((reads_str htable).bind ((reads_columns hcount hone).bind
    (hextras.bind_nil (Reads.pure (WalOp.alterAddColumn table c)))))

theorem reads_setRls {table : String} (htable : ShortText table) (enabled : Bool) :
    Reads decodeOp (WalOp.setRls table enabled).encode (.setRls table enabled) := by
  have hflag := Reads.last (reads_u8 (if enabled then 1 else 0)) fun flag => WalOp.setRls table (flag ≠ 0)
  have hread : decide ((if enabled then (1 : UInt8) else 0) ≠ 0) = enabled := by cases enabled <;> rfl
  rw [hread] at hflag
  exact reads_tag ((reads_str htable).bind hflag)

end WalBytes

open WalBytes in
/-- What the operation's record can say: no length, no count and no number of an index's
parameters is cut off, and a new table comes without policies. -/
def WalOp.Sized : WalOp → Prop
  | .createTable schema => ShortTable schema ∧ Fresh schema
  | .dropTable name | .dropIndex name | .dropView name => ShortText name
  | .insert table vid values =>
    ShortText table ∧ vid < 2 ^ 64 ∧ values.length < 2 ^ 32 ∧ ∀ v ∈ values, ShortValue v
  | .delete table vid => ShortText table ∧ vid < 2 ^ 64
  | .createIndex d => ShortIndex d
  | .alterAddColumn table c => ShortText table ∧ ShortColumn c
  | .alterRenameColumn table source target => ShortText table ∧ ShortText source ∧ ShortText target
  | .alterDropColumn a b | .alterRenameTable a b | .createView a b | .dropPolicy a b => ShortText a ∧ ShortText b
  | .createPolicy table policy => ShortText table ∧ ShortPolicy policy
  | .setRls table _ => ShortText table
  | .commit => True

namespace WalBytes

theorem decode_of_reads {op : WalOp} (h : Reads decodeOp op.encode op) : WalOp.decode op.encode = .ok op := by
  have hread := h []
  rw [List.append_nil] at hread
  rw [WalOp.decode, hread]
  rfl

/-- Two texts after a tag. -/
theorem reads_two {a b : String} (ha : ShortText a) (hb : ShortText b) (f : String → String → WalOp) :
    Reads (str >>= fun a => str >>= fun b => pure (f a b)) (putStr a ++ putStr b) (f a b) :=
  (reads_str ha).bind (Reads.last (reads_str hb) (f a))

/-- The parameters of an index are not bounded where they are parsed: an index is read back as
itself exactly when they fit their four bytes. -/
theorem decode_createIndex_iff {d : IndexDef} (hname : ShortText d.name) (htable : ShortText d.table)
    (hcolumn : ShortText d.column) : WalOp.decode (WalOp.createIndex d).encode = .ok (.createIndex d) ↔
      d.params.m < 2 ^ 32 ∧ d.params.efConstruction < 2 ^ 32 ∧ d.params.efSearch < 2 ^ 32 := by
  have hread := reads_createIndex hname htable hcolumn []
  rw [List.append_nil] at hread
  rw [WalOp.decode, hread, ← truncated_eq_iff]
  constructor
  · intro h
    exact WalOp.createIndex.inj (Except.ok.inj h)
  · intro h
    exact congrArg (fun d => Except.ok (WalOp.createIndex d)) h

end WalBytes

end Twill
