/-
SQL values and column types (`value.rs`), the error type (`error.rs`), and
the key strings `PRIMARY KEY`, `UNIQUE`, `GROUP BY` and `DISTINCT` compare
(`value_key`, `composite_key`).

A real is its binary64 bit pattern and a vector is a list of binary32 bit
patterns, so values have decidable equality. Arithmetic and comparison go
through `Float` and `Float32`; the text forms of floats are leaf functions
of the standard library and are collected in `Prims`.
-/
import Mathlib

namespace Twill

/-- `EngineStatus`, without the success code. -/
inductive EngineStatus where
  | errSql | errConstraint | errConflict | errStorage | errTxn | errMisuse | errInternal
  deriving DecidableEq, Repr

structure EngineError where
  status : EngineStatus
  message : String
  deriving DecidableEq, Repr

/-- How a computation of the model stops early: with the source's `Err`, with
a panic (an index or an integer operation out of range), or because query
expansion ran out of the model's fuel (the source would still be recursing). -/
inductive Stop where
  | err (e : EngineError)
  | panic
  | fuel
  deriving DecidableEq, Repr

abbrev Res := Except Stop

namespace EngineError

def sql (msg : String) : Stop := .err ⟨.errSql, msg⟩
def constraint (msg : String) : Stop := .err ⟨.errConstraint, msg⟩
def conflict (msg : String) : Stop := .err ⟨.errConflict, msg⟩
def txn (msg : String) : Stop := .err ⟨.errTxn, msg⟩
def misuse (msg : String) : Stop := .err ⟨.errMisuse, msg⟩

end EngineError

/-! ## Text helpers -/

/-- `str::to_ascii_lowercase`. -/
def toAsciiLowercase (s : String) : String := String.ofList (s.toList.map Char.toLower)

/-- `str::eq_ignore_ascii_case`. -/
def eqIgnoreAsciiCase (a b : String) : Bool := toAsciiLowercase a == toAsciiLowercase b

/-- `char::is_whitespace`. -/
def isWhitespace (c : Char) : Bool :=
  let n := c.toNat
  (0x9 ≤ n && n ≤ 0xD) || n == 0x20 || n == 0x85 || n == 0xA0 || n == 0x1680 ||
    (0x2000 ≤ n && n ≤ 0x200A) || n == 0x2028 || n == 0x2029 || n == 0x202F || n == 0x205F || n == 0x3000

/-- `str::trim`. -/
def trimText (s : String) : String :=
  String.ofList (((s.toList.dropWhile isWhitespace).reverse.dropWhile isWhitespace).reverse)

/-- `str::parse::<i64>`: an optional sign, then digits, in range. -/
def parseI64 (s : String) : Option Int64 :=
  let digits (cs : List Char) : Option Nat :=
    if cs.isEmpty || !cs.all Char.isDigit then none
    else some (cs.foldl (fun n c => n * 10 + (c.toNat - 48)) 0)
  let signed : Option Int := match s.toList with
    | '-' :: cs => (digits cs).map fun n => -(n : Int)
    | '+' :: cs => (digits cs).map fun n => (n : Int)
    | cs => (digits cs).map fun n => (n : Int)
  match signed with
  | some i => if -(2 : Int) ^ 63 ≤ i ∧ i < (2 : Int) ^ 63 then some (Int64.ofInt i) else none
  | none => none

/-- Joins texts with a separator (`[String]::join`). -/
def joinWith (sep : String) : List String → String
  | [] => ""
  | [s] => s
  | s :: t :: rest => s ++ sep ++ joinWith sep (t :: rest)

/-- `{:?}` of a string. -/
def debugText (s : String) : String :=
  let esc (c : Char) : List Char :=
    if c = '"' then ['\\', '"'] else if c = '\\' then ['\\', '\\']
    else if c = '\n' then ['\\', 'n'] else if c = '\r' then ['\\', 'r']
    else if c = '\t' then ['\\', 't'] else if c.toNat = 0 then ['\\', '0']
    else if c.toNat < 0x20 || c.toNat = 0x7F then
      ['\\', 'u', '\x7b'] ++ Nat.toDigits 16 c.toNat ++ ['\x7d']
    else [c]
  "\"" ++ String.ofList (s.toList.flatMap esc) ++ "\""

/-- `i as f64`: the nearest number, a tie to the even one. -/
def asF64 (i : Int64) : Float := .ofModel (.ofInt64 i)

/-- `r as i64`: cut towards zero and to the range, NaN to zero. -/
def asI64 (r : Float) : Int64 := r.toModel.toInt64

/-! ## Values -/

inductive Value where
  | null
  | int (i : Int64)
  | real (bits : UInt64)
  | text (s : String)
  | blob (b : List UInt8)
  | vector (v : List UInt32)
  deriving DecidableEq, Repr

/-- A row image, in column order. -/
abbrev Row := List Value

inductive ColumnType where
  | integer
  | real
  | text
  | blob
  | vector (dim : UInt32)
  deriving DecidableEq, Repr

/-- `Metric`: each names one SQL distance operator. -/
inductive Metric where
  | cosine | l2 | innerProduct
  deriving DecidableEq, Repr

/-- Leaf functions of the standard library the model does not embed: the
decimal text of floats, both ways (`format!`, `str::parse`), and `fmod`. -/
structure Prims where
  formatReal : UInt64 → String
  formatF32 : UInt32 → String
  parseF64 : String → Option UInt64
  parseF32 : String → Option UInt32
  /-- The remainder of binary64 division (`%`). -/
  realRem : UInt64 → UInt64 → UInt64

namespace Value

def isNull : Value → Bool
  | .null => true
  | _ => false

def typeName : Value → String
  | .null => "NULL"
  | .int _ => "INTEGER"
  | .real _ => "REAL"
  | .text _ => "TEXT"
  | .blob _ => "BLOB"
  | .vector _ => "VECTOR"

/-- Truthiness under three-valued logic: `none` is unknown. -/
def asBool : Value → Option Bool
  | .null => none
  | .int i => some (i != 0)
  | .real b => some (Float.ofBits b != 0)
  | .text s => some (!s.isEmpty && s != "0")
  | .blob b => some (!b.isEmpty)
  | .vector v => some (!v.isEmpty)

def asVector : Value → Option (List UInt32)
  | .vector v => some v
  | _ => none

def numeric : Value → Option Float
  | .int i => some (asF64 i)
  | .real b => some (Float.ofBits b)
  | _ => none

/-- `f64::partial_cmp`. -/
def partialCmp (a b : Float) : Option Ordering :=
  if a < b then some .lt else if a > b then some .gt else if a == b then some .eq else none

/-- SQL comparison; `none` when unknown. Two numbers compare as binary64. -/
def sqlCmp (a b : Value) : Option Ordering :=
  if a.isNull || b.isNull then none
  else match a.numeric, b.numeric with
    | some x, some y => partialCmp x y
    | _, _ => match a, b with
      | .text s, .text t => some (compare s t)
      | .blob s, .blob t => some (compare s t)
      | _, _ => none

/-- SQL equality, three-valued. Mixed incomparable types are not equal. -/
def sqlEq (a b : Value) : Option Bool :=
  if a.isNull || b.isNull then none
  else match sqlCmp a b with
    | some o => some (o == .eq)
    | none => some false

end Value

/-! ## Text forms -/

def b64Alphabet : List Char :=
  "ABCDEFGHIJKLMNOPQRSTUVWXYZabcdefghijklmnopqrstuvwxyz0123456789+/".toList

def b64Char (n : Nat) : Char := b64Alphabet.getD (n % 64) '='

/-- `base64_encode`, three bytes at a time. -/
def base64Chars : List UInt8 → List Char
  | [] => []
  | [a] =>
    let n := a.toNat * 2 ^ 16
    [b64Char (n / 2 ^ 18), b64Char (n / 2 ^ 12), '=', '=']
  | [a, b] =>
    let n := a.toNat * 2 ^ 16 + b.toNat * 2 ^ 8
    [b64Char (n / 2 ^ 18), b64Char (n / 2 ^ 12), b64Char (n / 2 ^ 6), '=']
  | a :: b :: c :: rest =>
    let n := a.toNat * 2 ^ 16 + b.toNat * 2 ^ 8 + c.toNat
    b64Char (n / 2 ^ 18) :: b64Char (n / 2 ^ 12) :: b64Char (n / 2 ^ 6) :: b64Char n :: base64Chars rest

def base64Encode (b : List UInt8) : String := String.ofList (base64Chars b)

def formatVector (P : Prims) (v : List UInt32) : String :=
  "[" ++ joinWith "," (v.map P.formatF32) ++ "]"

/-- `Value::render`: the text form, `none` for NULL. -/
def Value.render (P : Prims) : Value → Option String
  | .null => none
  | .int i => some (toString i)
  | .real b => some (P.formatReal b)
  | .text s => some s
  | .blob b => some (base64Encode b)
  | .vector v => some (formatVector P v)

def textOf (P : Prims) (v : Value) : String := (v.render P).getD ""

/-- Splits at commas, spaces and tabs, dropping empty pieces. -/
def vectorPieces (s : String) : List String :=
  ((s.toList.splitBy fun a b => !(a ∈ [',', ' ', '\t']) && !(b ∈ [',', ' ', '\t'])).filter
    fun cs => !cs.any (· ∈ [',', ' ', '\t'])).map String.ofList

/-- `parse_vector`: a `[1, 2, 3]` literal, `none` if a component is not a
finite number (`Prims.parseF32` answers finite numbers only). -/
def parseVector (P : Prims) (s : String) : Option (List UInt32) :=
  let cs := (trimText s).toList
  let inner := match cs with
    | '[' :: rest => match rest.reverse with
      | ']' :: body => body.reverse
      | _ => rest
    | _ => cs
  let inner := trimText (String.ofList inner)
  if inner.isEmpty then some [] else (vectorPieces inner).mapM fun t => P.parseF32 (trimText t)

/-- `ColumnType::coerce`: light affinity toward the column's class. -/
def ColumnType.coerce (P : Prims) (ty : ColumnType) (v : Value) : Value :=
  match ty, v with
  | .real, .int i => .real (asF64 i).toBits
  | .integer, .real b =>
    let r := Float.ofBits b
    if r - (if r < 0 then r.ceil else r.floor) == 0 then .int (asI64 r) else .real b
  | .vector _, .text s => match parseVector P s with
    | some x => .vector x
    | none => .text s
  | _, other => other

def ColumnType.isVector : ColumnType → Bool
  | .vector _ => true
  | _ => false

/-! ## Keys -/

/-- `value_key`: a one-string encoding of a value. -/
def valueKey (P : Prims) : Value → String
  | .null => "\x00null"
  | .int i => "i" ++ toString i
  | .real b => "r" ++ toString b
  | .text s => "t" ++ s
  | .blob b => "b" ++ base64Encode b
  | .vector v => "v" ++ formatVector P v

/-- `vals[c]`; a row is at least as wide as the positions its callers take
from the schema. -/
def Row.cell (vals : Row) (c : Nat) : Value := vals.getD c .null

/-- `composite_key`: the key string of a row over a column list. -/
def compositeKey (P : Prims) (vals : Row) (cols : List Nat) : String :=
  cols.foldl (fun k c => k ++ valueKey P (vals.cell c) ++ "\x01") ""

end Twill
