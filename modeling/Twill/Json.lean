/-
JSON text (`json.rs`): the document model, the writer and the parser.

The parser reads the characters that are left and hands on what remains of them. Nesting is
bounded by fuel, of which a document gets more than it can use (`value_fuel`).
-/
import Twill.Compare
import Twill.Numerals

namespace Twill

/-- `Json`; a number is its binary64 bit pattern, and an object keeps its members in order,
duplicate keys included. -/
inductive Json where
  | null
  | bool (b : Bool)
  | num (bits : UInt64)
  | str (s : String)
  | arr (items : List Json)
  | obj (members : List (String × Json))

namespace Json

/-! ## Writing -/

/-- `n.fract() == 0.0 && n.is_finite() && n.abs() < 1e15`. Below that bound the integer part is
the number `as i64` and back. -/
def isShortInteger (n : Float) : Bool :=
  n.isFinite && asF64 (-1000000000000000) < n && n < asF64 1000000000000000 && n == asF64 (asI64 n)

/-- `fmt_num`. -/
def fmtNum (P : Prims) (bits : UInt64) : String :=
  if isShortInteger (Float.ofBits bits) then toString (asI64 (Float.ofBits bits)) else P.formatReal bits

/-- What `quote` writes for one character. -/
def quoteChar (c : Char) : List Char :=
  if c = '"' then ['\\', '"']
  else if c = '\\' then ['\\', '\\']
  else if c = '\n' then ['\\', 'n']
  else if c = '\r' then ['\\', 'r']
  else if c = '\t' then ['\\', 't']
  else if c.toNat < 0x20 then '\\' :: 'u' :: (Nat.toDigits 16 c.toNat).leftpad 4 '0'
  else [c]

/-- `quote`. -/
def quote (s : String) : String := String.ofList ('"' :: s.toList.flatMap quoteChar ++ ['"'])

mutual

/-- `write_json`. -/
def writeJson (P : Prims) : Json → List Char
  | .null => "null".toList
  | .bool b => if b then "true".toList else "false".toList
  | .num bits => (fmtNum P bits).toList
  | .str s => (quote s).toList
  | .arr items => '[' :: writeItems P true items ++ [']']
  | .obj members => '\x7b' :: writeMembers P true members ++ ['\x7d']

/-- The loop over an array: a comma before every item but the first. -/
def writeItems (P : Prims) : Bool → List Json → List Char
  | _, [] => []
  | first, v :: items => (if first then [] else [',']) ++ writeJson P v ++ writeItems P false items

/-- The loop over an object. -/
def writeMembers (P : Prims) : Bool → List (String × Json) → List Char
  | _, [] => []
  | first, (k, v) :: members =>
    (if first then [] else [',']) ++ (quote k).toList ++ ':' :: writeJson P v ++ writeMembers P false members

end

/-- `to_json_text`. -/
def toJsonText (P : Prims) (j : Json) : String := String.ofList (writeJson P j)

/-! ## Reading -/

/-- `char::is_ascii_whitespace`. -/
def isAsciiWhitespace (c : Char) : Bool := c == ' ' || c == '\t' || c == '\n' || c == '\x0c' || c == '\r'

/-- `Parser::ws`. -/
def ws (cs : List Char) : List Char := cs.dropWhile isAsciiWhitespace

/-- `Parser::literal`. -/
def literal (word : List Char) (v : Json) (cs : List Char) : Option (Json × List Char) :=
  if word.isPrefixOf cs then some (v, cs.drop word.length) else none

open Float.Model UnpackedFloat in
/-- The number nearest to `m * 10 ^ e`. -/
def nearestDecimal (sign : UnpackedFloat.Sign) (m : Nat) (e : Int) : Float :=
  .ofModel (.pack (
    if hm : m = 0 then .zero sign
    else if 0 ≤ e then UnpackedFloat.round Format.binary64 sign (m * 10 ^ e.toNat) 0
    else UnpackedFloat.div Format.binary64 (.finite sign m 0 (Nat.pos_of_ne_zero hm))
      (.finite .positive (10 ^ (-e).toNat) 0 (by positivity))))

def digitsValue (cs : List Char) : Nat := cs.foldl (fun m c => m * 10 + (c.toNat - 48)) 0

/-- The sign that text may begin with. -/
def splitSign : List Char → Float.Model.UnpackedFloat.Sign × List Char
  | '-' :: cs => (.negative, cs)
  | '+' :: cs => (.positive, cs)
  | cs => (.positive, cs)

/-- The exponent of a decimal number, when there is one. -/
def exponent : List Char → Option Int
  | [] => some 0
  | marker :: cs =>
    let (sign, digits) := splitSign cs
    if (marker = 'e' ∨ marker = 'E') ∧ digits ≠ [] ∧ digits.all Char.isDigit then
      some (sign.apply (digitsValue digits))
    else none

/-- `str::parse::<f64>` of text without letters other than `e` and `E`. -/
def parseF64 (cs : List Char) : Option Float :=
  let (sign, body) := splitSign cs
  let whole := body.takeWhile Char.isDigit
  let (fraction, rest) := match body.dropWhile Char.isDigit with
    | '.' :: rest => (rest.takeWhile Char.isDigit, rest.dropWhile Char.isDigit)
    | rest => ([], rest)
  if whole.isEmpty && fraction.isEmpty then none
  else (exponent rest).map fun e => nearestDecimal sign (digitsValue (whole ++ fraction)) (e - fraction.length)

def isNumberChar (c : Char) : Bool := c.isDigit || c == '-' || c == '+' || c == '.' || c == 'e' || c == 'E'

/-- `Parser::number`. -/
def number (cs : List Char) : Option (Json × List Char) :=
  let text := cs.takeWhile isNumberChar
  if text.isEmpty then none
  else (parseF64 text).map fun n => (.num n.toBits, cs.dropWhile isNumberChar)

/-- The escapes of one letter. -/
def shortEscape (e : Char) : Option Char :=
  if e = '"' then some '"'
  else if e = '\\' then some '\\'
  else if e = '/' then some '/'
  else if e = 'n' then some '\n'
  else if e = 't' then some '\t'
  else if e = 'r' then some '\r'
  else if e = 'b' then some '\x08'
  else if e = 'f' then some '\x0c'
  else none

/-- `char::to_digit(16)`. -/
def hexDigit (c : Char) : Option Nat :=
  if '0' ≤ c ∧ c ≤ '9' then some (c.toNat - 48)
  else if 'a' ≤ c ∧ c ≤ 'f' then some (c.toNat - 87)
  else if 'A' ≤ c ∧ c ≤ 'F' then some (c.toNat - 55)
  else none

/-- The number that four hexadecimal digits spell. -/
def hexCode (a b c d : Char) : Option Nat := do
  let a ← hexDigit a
  let b ← hexDigit b
  let c ← hexDigit c
  let d ← hexDigit d
  return ((a * 16 + b) * 16 + c) * 16 + d

/-- `char::from_u32(code).unwrap_or('\u{fffd}')`. -/
def charOrReplacement (code : Nat) : Char := if code.isValidChar then Char.ofNat code else '\ufffd'

/-- The loop of `Parser::string`, after the opening quote. -/
def stringRest : List Char → Option (List Char × List Char)
  | [] => none
  | c :: cs =>
    let push (d : Char) (read : Option (List Char × List Char)) := read.map fun (s, cs) => (d :: s, cs)
    if c = '"' then some ([], cs)
    else if c = '\\' then
      match cs with
      | [] => none
      | e :: cs =>
        match shortEscape e with
        | some d => push d (stringRest cs)
        | none =>
          if e = 'u' then
            match cs with
            | h₁ :: h₂ :: h₃ :: h₄ :: cs =>
              match hexCode h₁ h₂ h₃ h₄ with
              | some code => push (charOrReplacement code) (stringRest cs)
              | none => none
            | _ => none
          else none
    else push c (stringRest cs)

/-- `Parser::string`. -/
def string : List Char → Option (String × List Char)
  | '"' :: cs => (stringRest cs).map fun (s, cs) => (String.ofList s, cs)
  | _ => none

mutual

/-- `Parser::value`, with the opening of `array` and `object`. -/
def value : Nat → List Char → Option (Json × List Char)
  | 0, _ => none
  | fuel + 1, cs =>
    match ws cs with
    | [] => none
    | c :: rest =>
      if c = '\x7b' then
        match ws rest with
        | '\x7d' :: rest => some (.obj [], rest)
        | _ => (members fuel rest).map fun (ms, rest) => (.obj ms, rest)
      else if c = '[' then
        match ws rest with
        | ']' :: rest => some (.arr [], rest)
        | _ => (items fuel rest).map fun (vs, rest) => (.arr vs, rest)
      else if c = '"' then (string (c :: rest)).map fun (s, rest) => (.str s, rest)
      else if c = 't' then literal "true".toList (.bool true) (c :: rest)
      else if c = 'f' then literal "false".toList (.bool false) (c :: rest)
      else if c = 'n' then literal "null".toList .null (c :: rest)
      else number (c :: rest)

/-- The loop of `Parser::array`. -/
def items : Nat → List Char → Option (List Json × List Char)
  | 0, _ => none
  | fuel + 1, cs => do
    let (v, rest) ← value fuel cs
    match ws rest with
    | ',' :: rest =>
      let (vs, rest) ← items fuel rest
      return (v :: vs, rest)
    | ']' :: rest => return ([v], rest)
    | _ => none

/-- The loop of `Parser::object`. -/
def members : Nat → List Char → Option (List (String × Json) × List Char)
  | 0, _ => none
  | fuel + 1, cs => do
    let (k, rest) ← string (ws cs)
    match ws rest with
    | ':' :: rest =>
      let (v, rest) ← value fuel rest
      match ws rest with
      | ',' :: rest =>
        let (ms, rest) ← members fuel rest
        return ((k, v) :: ms, rest)
      | '\x7d' :: rest => return ([(k, v)], rest)
      | _ => none
    | _ => none

end

/-- `Json::parse`. -/
def parse (s : String) : Option Json :=
  match value (2 * s.toList.length + 1) s.toList with
  | some (v, rest) => if (ws rest).isEmpty then some v else none
  | none => none

end Json

end Twill
