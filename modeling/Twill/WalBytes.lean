/-
The bytes of a log record (`wal.rs`: `WalOp::encode`, `WalOp::decode`, `Cursor`).

A cursor is the bytes that are left. Lengths and counts are written as four bytes, so what
`as u32` cuts off is lost; an operation is `Sized` when nothing is.
-/
import Twill.Wal
import Twill.Lib.ByteReader

namespace Twill

open ByteReader (toLe fromLe times atEnd)

namespace EngineError

def internal (msg : String) : Stop := .err ⟨.errInternal, msg⟩

end EngineError

/-! ## Tags -/

/-- `ColumnType::tag`. -/
def ColumnType.tag : ColumnType → UInt8
  | .integer => 0
  | .real => 1
  | .text => 2
  | .blob => 3
  | .vector _ => 4

/-- `ColumnType::from_tag`. -/
def ColumnType.fromTag (t : UInt8) : ColumnType :=
  if t = 0 then .integer
  else if t = 1 then .real
  else if t = 3 then .blob
  else if t = 4 then .vector 0
  else .text

/-- `Metric::tag`. -/
def Metric.tag : Metric → UInt8
  | .cosine => 0
  | .l2 => 1
  | .innerProduct => 2

/-- `Metric::from_tag`. -/
def Metric.fromTag (t : UInt8) : Metric := if t = 1 then .l2 else if t = 2 then .innerProduct else .cosine

/-- `PolicyCommand::tag`. -/
def PolicyCommand.tag : PolicyCommand → UInt8
  | .all => 0
  | .select => 1
  | .insert => 2
  | .update => 3
  | .delete => 4

/-- `PolicyCommand::from_tag`. -/
def PolicyCommand.fromTag (t : UInt8) : PolicyCommand :=
  if t = 1 then .select
  else if t = 2 then .insert
  else if t = 3 then .update
  else if t = 4 then .delete
  else .all

/-! ## Writing -/

namespace WalBytes

def putU32 (n : Nat) : List UInt8 := toLe 4 n

def putU64 (n : Nat) : List UInt8 := toLe 8 n

/-- `str::as_bytes`. -/
def textBytes (s : String) : List UInt8 := s.toByteArray.data.toList

def putStr (s : String) : List UInt8 := putU32 (textBytes s).length ++ textBytes s

def putOptStr : Option String → List UInt8
  | some s => 1 :: putStr s
  | none => [0]

/-- A list after its length. -/
def putList {α : Type} (put : α → List UInt8) (items : List α) : List UInt8 :=
  putU32 items.length ++ items.flatMap put

def putColtype (ty : ColumnType) : List UInt8 :=
  ty.tag :: match ty with
    | .vector dim => putU32 dim.toNat
    | _ => []

def putValue : Value → List UInt8
  | .null => [0]
  | .int i => 1 :: putU64 i.toUInt64.toNat
  | .real bits => 2 :: putU64 bits.toNat
  | .text s => 3 :: putStr s
  | .blob b => 4 :: (putU32 b.length ++ b)
  | .vector v => 5 :: putList (fun x : UInt32 => putU32 x.toNat) v

/-- The flag byte of a column. -/
def columnFlags (c : Column) : UInt8 :=
  (if c.primaryKey then 1 else 0) ||| (if c.notNull then 2 else 0) ||| (if c.unique then 4 else 0) |||
    (if c.autoincrement then 8 else 0)

/-- A column without its DEFAULT. -/
def putColumn (c : Column) : List UInt8 := putStr c.name ++ (putColtype c.ty ++ [columnFlags c])

def putForeignKey (fk : ForeignKey) : List UInt8 :=
  putStr fk.name ++ (putStr fk.foreignTable ++ (putList putStr fk.columns ++ putList putStr fk.foreignColumns))

/-- What follows the foreign keys: the DEFAULTs, the CHECKs and the composite UNIQUEs. -/
def putExtras (columns : List Column) (checks : List String) (uniques : List (List String)) : List UInt8 :=
  putList (fun c : Column => putOptStr c.defaultSql) columns ++ (putList putStr checks ++ putList (putList putStr) uniques)

def putPolicy (policy : Policy) : List UInt8 :=
  putStr policy.name ++ (policy.command.tag :: (putList putStr policy.roles ++
    (putOptStr policy.using_ ++ putOptStr policy.check)))

/-- A `CreateTable` record up to the end of its columns. -/
def putTable (schema : TableSchema) : List UInt8 := 1 :: (putStr schema.name ++ putList putColumn schema.columns)

end WalBytes

open WalBytes in
/-- `WalOp::encode`. -/
def WalOp.encode : WalOp → List UInt8
  | .createTable schema => putTable schema ++ (putList putForeignKey schema.foreignKeys ++
      putExtras schema.columns schema.checks schema.uniques)
  | .dropTable name => 2 :: putStr name
  | .createIndex d => 6 :: (putStr d.name ++ (putStr d.table ++ (putStr d.column ++ (putU32 d.params.m ++
      (putU32 d.params.efConstruction ++ (putU32 d.params.efSearch ++ [d.params.metric.tag]))))))
  | .dropIndex name => 7 :: putStr name
  | .insert table vid values => 3 :: (putStr table ++ (putU64 vid ++ putList putValue values))
  | .delete table vid => 4 :: (putStr table ++ putU64 vid)
  | .alterAddColumn table column => 8 :: (putStr table ++ (putList putColumn [column] ++ putExtras [column] [] []))
  | .alterDropColumn table column => 9 :: (putStr table ++ putStr column)
  | .alterRenameColumn table source target => 10 :: (putStr table ++ (putStr source ++ putStr target))
  | .alterRenameTable table target => 11 :: (putStr table ++ putStr target)
  | .createView name sql => 12 :: (putStr name ++ putStr sql)
  | .dropView name => 13 :: putStr name
  | .createPolicy table policy => 14 :: (putStr table ++ putPolicy policy)
  | .dropPolicy table name => 15 :: (putStr table ++ putStr name)
  | .setRls table enabled => 16 :: (putStr table ++ [if enabled then 1 else 0])
  | .commit => [5]

/-! ## Reading -/

namespace WalBytes

abbrev Cursor (α : Type) := ByteReader.Reader Res α

/-- `Cursor::take`. -/
def take (n : Nat) : Cursor (List UInt8) := ByteReader.take (.error (EngineError.internal "WAL record truncated")) n

def fail {α : Type} (msg : String) : Cursor α := fun _ => .error (EngineError.internal msg)

/-- `Cursor::u8`. -/
def u8 : Cursor UInt8 := (fun bytes => bytes.headD 0) <$> take 1

def u32 : Cursor Nat := fromLe <$> take 4

def u64 : Cursor Nat := fromLe <$> take 8

/-- `String::from_utf8`. -/
def fromUtf8 (bytes : List UInt8) : Cursor String :=
  match String.fromUTF8? ⟨bytes.toArray⟩ with
  | some s => return s
  | none => fail "bad utf8 in WAL"

/-- `Cursor::str`. -/
def str : Cursor String := do
  let n ← u32
  let bytes ← take n
  fromUtf8 bytes

/-- `Cursor::opt_str`. -/
def optStr : Cursor (Option String) := do
  if (← u8) = 1 then return some (← str) else return none

/-- A count, then as many items. -/
def list {α : Type} (r : Cursor α) : Cursor (List α) := do
  let n ← u32
  times n r

/-- `Cursor::value`. -/
def value : Cursor Value := do
  let tag ← u8
  if tag = 0 then return .null
  else if tag = 1 then return .int (UInt64.ofNat (← u64)).toInt64
  else if tag = 2 then return .real (UInt64.ofNat (← u64))
  else if tag = 3 then return .text (← str)
  else if tag = 4 then return .blob (← take (← u32))
  else if tag = 5 then return .vector (← list (UInt32.ofNat <$> u32))
  else fail s!"bad value tag {tag}"

/-- `Cursor::coltype`. -/
def coltype : Cursor ColumnType := do
  let tag ← u8
  if tag = 4 then return .vector (UInt32.ofNat (← u32)) else return ColumnType.fromTag tag

def column : Cursor Column := do
  let name ← str
  let ty ← coltype
  let flags ← u8
  return {
    name, ty
    primaryKey := flags &&& 1 ≠ 0
    notNull := flags &&& 2 ≠ 0
    unique := flags &&& 4 ≠ 0
    autoincrement := flags &&& 8 ≠ 0
    defaultSql := none }

/-- `decode_columns`. -/
def decodeColumns : Cursor (List Column) := list column

/-- `decode_str_list`. -/
def decodeStrList : Cursor (List String) := list str

def foreignKey : Cursor ForeignKey := do
  let name ← str
  let foreignTable ← str
  let columns ← decodeStrList
  let foreignColumns ← decodeStrList
  return { name, columns, foreignTable, foreignColumns }

/-- `decode_foreign_keys`: a record that ends here has none. -/
def decodeForeignKeys : Cursor (List ForeignKey) := do
  if ← atEnd then return [] else list foreignKey

/-- Fills the DEFAULTs in, column by column. -/
def fillDefaults : List Column → List (Option String) → List Column
  | c :: columns, d :: defaults =>
    (match d with
      | some s => { c with defaultSql := some s }
      | none => c) :: fillDefaults columns defaults
  | columns, _ => columns

/-- `decode_table_extras`: the columns with their DEFAULTs, the CHECKs, the composite UNIQUEs. A
record that ends here has none. -/
def decodeTableExtras (columns : List Column) : Cursor (List Column × List String × List (List String)) := do
  if ← atEnd then return (columns, [], [])
  else
    let defaults ← list optStr
    let checks ← decodeStrList
    let uniques ← list decodeStrList
    return (fillDefaults columns defaults, checks, uniques)

/-- `decode_create`. -/
def decodeCreate : Cursor WalOp := do
  let name ← str
  let columns ← decodeColumns
  let foreignKeys ← decodeForeignKeys
  let (columns, checks, uniques) ← decodeTableExtras columns
  return .createTable { name, columns, foreignKeys, checks, uniques, rlsEnabled := false, policies := [] }

/-- `decode_alter_add`. -/
def decodeAlterAdd : Cursor WalOp := do
  let table ← str
  let columns ← decodeColumns
  let (columns, _) ← decodeTableExtras columns
  match columns.getLast? with
  | some column => return .alterAddColumn table column
  | none => fail "ALTER ADD COLUMN record has no column"

/-- `decode_create_policy`. -/
def decodeCreatePolicy : Cursor WalOp := do
  let table ← str
  let name ← str
  let command ← u8
  let roles ← decodeStrList
  let using_ ← optStr
  let check ← optStr
  return .createPolicy table { name, command := PolicyCommand.fromTag command, roles, using_, check }

/-- `decode_create_index`. -/
def decodeCreateIndex : Cursor WalOp := do
  let name ← str
  let table ← str
  let column ← str
  let m ← u32
  let efConstruction ← u32
  let efSearch ← u32
  let metric ← u8
  return .createIndex { name, table, column, params := { m, efConstruction, efSearch, metric := Metric.fromTag metric } }

/-- `decode_insert`. -/
def decodeInsert : Cursor WalOp := do
  let table ← str
  let vid ← u64
  let values ← list value
  return .insert table vid values

/-- `decode_catalog_op`. -/
def decodeCatalogOp (tag : UInt8) : Cursor WalOp :=
  if tag = 9 then return .alterDropColumn (← str) (← str)
  else if tag = 10 then return .alterRenameColumn (← str) (← str) (← str)
  else if tag = 11 then return .alterRenameTable (← str) (← str)
  else if tag = 12 then return .createView (← str) (← str)
  else if tag = 13 then return .dropView (← str)
  else if tag = 14 then decodeCreatePolicy
  else if tag = 15 then return .dropPolicy (← str) (← str)
  else if tag = 16 then return .setRls (← str) ((← u8) ≠ 0)
  else fail s!"bad WAL op tag {tag}"

/-- The dispatch of `WalOp::decode`. -/
def decodeOp : Cursor WalOp := do
  let tag ← u8
  if tag = 1 then decodeCreate
  else if tag = 8 then decodeAlterAdd
  else if tag = 2 then return .dropTable (← str)
  else if tag = 6 then decodeCreateIndex
  else if tag = 7 then return .dropIndex (← str)
  else if tag = 3 then decodeInsert
  else if tag = 4 then return .delete (← str) (← u64)
  else if tag = 5 then return .commit
  else decodeCatalogOp tag

end WalBytes

/-- `WalOp::decode`; bytes after the operation are not looked at. -/
def WalOp.decode (bytes : List UInt8) : Res WalOp := (WalBytes.decodeOp bytes).map (·.1)

end Twill
