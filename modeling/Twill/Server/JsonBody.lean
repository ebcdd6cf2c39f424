/-
JSON request and response bodies (`datapath.rs`: `JsonParser`, `json_rows`, `rows_to_json`).

The reader walks the characters that are left; the source's bytes are those of a text, so a
string it collects is one again. Nesting is bounded by fuel, of which a body gets more than
it can use (`value_fuel`).
-/
import Twill.Json
import Twill.Server.Session

namespace Twill.Server.JsonBody

open Json (ws isNumberChar parseF64 shortEscape hexDigit charOrReplacement quoteChar)

/-! ## Reading -/

def dropPlus : List Char → List Char
  | '+' :: digits => digits
  | digits => digits

/-- `u32::from_str_radix(…, 16)`: a plus sign may lead. -/
def fromStrRadix16 (cs : List Char) : Option Nat :=
  if (dropPlus cs).isEmpty then none else (dropPlus cs).foldlM (fun n c => (hexDigit c).map fun d => n * 16 + d) 0

/-- The loop of `JsonParser::string`, after the opening quote. -/
def stringRest : List Char → Except String (List Char × List Char)
  | [] => .error "unterminated JSON string"
  | c :: cs =>
    let push (d : Char) (read : Except String (List Char × List Char)) := read.map fun (s, cs) => (d :: s, cs)
    if c = '"' then .ok ([], cs)
    else if c = '\\' then
      match cs with
      | [] => .error "bad JSON escape"
      | e :: cs =>
        match shortEscape e with
        | some d => push d (stringRest cs)
        | none =>
          if e = 'u' then
            match cs with
            | h₁ :: h₂ :: h₃ :: h₄ :: cs =>
              match fromStrRadix16 [h₁, h₂, h₃, h₄] with
              | some code => push (charOrReplacement code) (stringRest cs)
              | none => .error "bad \\u"
            | _ => .error "bad \\u"
          else .error "bad JSON escape"
    else push c (stringRest cs)

def string : List Char → Except String (String × List Char)
  | '"' :: cs => (stringRest cs).map fun (s, cs) => (String.ofList s, cs)
  | _ => .error "expected JSON string"

def literal (word : String) (v : Json) (cs : List Char) : Except String (Json × List Char) :=
  if word.toList.isPrefixOf cs then .ok (v, cs.drop word.length)
  else .error ("invalid JSON literal, expected " ++ word)

def number (cs : List Char) : Except String (Json × List Char) :=
  let text := cs.takeWhile isNumberChar
  match parseF64 text with
  | some n => .ok (.num n.toBits, cs.dropWhile isNumberChar)
  | none => .error ("invalid JSON number \"" ++ String.ofList text ++ "\"")

mutual

/-- `value`, with the opening of `array` and `object`. -/
def value : Nat → List Char → Except String (Json × List Char)
  | 0, _ => .error "unexpected end of JSON"
  | fuel + 1, cs =>
    match ws cs with
    | [] => .error "unexpected end of JSON"
    | c :: rest =>
      if c = '\x7b' then
        match ws rest with
        | '\x7d' :: rest => .ok (.obj [], rest)
        | _ => (members fuel rest).map fun (ms, rest) => (.obj ms, rest)
      else if c = '[' then
        match ws rest with
        | ']' :: rest => .ok (.arr [], rest)
        | _ => (items fuel rest).map fun (vs, rest) => (.arr vs, rest)
      else if c = '"' then (string (c :: rest)).map fun (s, rest) => (.str s, rest)
      else if c = 't' then literal "true" (.bool true) (c :: rest)
      else if c = 'f' then literal "false" (.bool false) (c :: rest)
      else if c = 'n' then literal "null" .null (c :: rest)
      else number (c :: rest)

/-- The loop of `array`. -/
def items : Nat → List Char → Except String (List Json × List Char)
  | 0, _ => .error "unexpected end of JSON"
  | fuel + 1, cs => do
    let (v, rest) ← value fuel cs
    match ws rest with
    | ',' :: rest =>
      let (vs, rest) ← items fuel rest
      return (v :: vs, rest)
    | ']' :: rest => return ([v], rest)
    | _ => throw "expected ',' or ']' in JSON array"

/-- The loop of `object`. -/
def members : Nat → List Char → Except String (List (String × Json) × List Char)
  | 0, _ => .error "unexpected end of JSON"
  | fuel + 1, cs => do
    let (k, rest) ← string (ws cs)
    match ws rest with
    | ':' :: rest =>
      let (v, rest) ← value fuel rest
      match ws rest with
      | ',' :: rest =>
        let (ms, rest) ← members fuel rest
        return ((k, v) :: ms, rest)
      | '\x7d' :: rest => return ([(k, v)], rest)
      | _ => throw "expected ',' or '\x7d' in JSON object"
    | _ => throw "expected ':' in JSON object"

end

def parse (body : List Char) : Except String Json := do
  let (v, rest) ← value (2 * body.length + 1) body
  if (ws rest).isEmpty then return v else throw "trailing JSON content"

/-! ## Rows of a body -/

/-- `n.fract() == 0.0 && n.abs() < 9e18`. Below that bound the integer part is the number
`as i64` and back. -/
def isIntegral (n : Float) : Bool :=
  asF64 (-9000000000000000000) < n && n < asF64 9000000000000000000 && n == asF64 (asI64 n)

/-- `Json::to_value`. -/
def toValue : Json → Value
  | .null => .null
  | .bool b => .int (if b then 1 else 0)
  | .num bits => if isIntegral (Float.ofBits bits) then .int (asI64 (Float.ofBits bits)) else .real bits
  | .str s => .text s
  | .arr _ | .obj _ => .text ""

def fieldsOf : Json → Except String (List (String × Json))
  | .obj fields => .ok fields
  | _ => .error "each element must be a JSON object"

/-- The objects of a body. -/
def bodyObjects (body : List Char) : Except String (List (List (String × Json))) := do
  match ← parse body with
  | .arr items => items.mapM fieldsOf
  | .obj fields => return [fields]
  | _ => throw "request body must be a JSON object or array"

/-- The cell of a column: the first field of its name, or NULL. -/
def cellOf (fields : List (String × Json)) (col : List Char) : Value :=
  ((fields.find? fun f => f.1.toList = col).map fun f => toValue f.2).getD .null

/-- `json_rows`. -/
def jsonRows (body : List Char) (columns : List (List Char)) : Except String (List Row) :=
  (bodyObjects body).map fun objects => objects.map fun fields => columns.map (cellOf fields)

/-! ## Writing -/

/-- `json_string`. -/
def jsonString (s : List Char) : List Char := '"' :: s.flatMap quoteChar ++ ['"']

/-- The four characters of a chunk of `base64`: one to three bytes. -/
def base64Chunk (chunk : List UInt8) : List Char :=
  let b (i : Nat) : UInt32 := (chunk.getD i 0).toUInt32
  let n := b 0 <<< 16 ||| b 1 <<< 8 ||| b 2
  let t (i : UInt32) : Char := b64Alphabet.getD i.toNat '='
  [t (n >>> 18 &&& 63), t (n >>> 12 &&& 63), if 1 < chunk.length then t (n >>> 6 &&& 63) else '=',
    if 2 < chunk.length then t (n &&& 63) else '=']

/-- The server's own `base64`. -/
def base64 : List UInt8 → List Char
  | [] => []
  | a :: b :: c :: rest => base64Chunk [a, b, c] ++ base64 rest
  | chunk => base64Chunk chunk

/-- `value_json`; a real number's text is a parameter. -/
def valueJson (formatReal : UInt64 → List Char) : Value → List Char
  | .null => "null".toList
  | .int i => (toString i).toList
  | .real bits => if (Float.ofBits bits).isFinite then formatReal bits else "null".toList
  | .text s => jsonString s.toList
  | .blob b => jsonString (base64 b)
  | .vector _ => "null".toList

end JsonBody

/-- A session's codec with the server's own JSON. -/
def Codec.withJson (K : Codec) (formatReal : UInt64 → List Char) : Codec :=
  { K with
    jsonRows := JsonBody.jsonRows
    jsonValue := JsonBody.valueJson formatReal
    jsonString := JsonBody.jsonString }

/-- `rows_to_json`. -/
def rowsToJson (K : Codec) (formatReal : UInt64 → List Char) (columns : List String) (rows : List Row) : List Char :=
  jsonArray (K.withJson formatReal) columns rows

end Twill.Server
