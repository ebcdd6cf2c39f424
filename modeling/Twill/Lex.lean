/-
The SQL lexer (`lex.rs`): text to a flat token stream.

The source walks bytes; here the text is a list of characters. Outside literals,
identifiers and comments both refuse whatever is not ASCII, and a string literal
takes every byte of its text as one character, as the source does. A real number
keeps its text.
-/
import Twill.Value
import Twill.Lib.Text

namespace Twill

inductive Tok where
  | word (w : String)
  | int (n : Int64)
  | real (text : String)
  | str (s : String)
  | param
  | numParam (n : Nat)
  | namedParam (name : String)
  | lParen | rParen | lBracket | rBracket | comma | semi
  | dColon | dot | star
  | eq | ne | lt | le | gt | ge
  | plus | minus | slash | percent
  | concat | arrow | arrowText
  | vecL2 | vecCosine | vecIp
  | eof
  deriving DecidableEq, Repr

/-- `u8::is_ascii_whitespace`. -/
def isAsciiWhitespace (c : Char) : Bool := c == ' ' || c == '\t' || c == '\n' || c == '\x0c' || c == '\r'

/-- What a bare word goes on with. -/
def isWordChar (c : Char) : Bool := c == '_' || c.isAlphanum

/-- Single-character tokens with no longer form. -/
def simpleToken : Char → Option Tok
  | '(' => some .lParen
  | ')' => some .rParen
  | '[' => some .lBracket
  | ']' => some .rBracket
  | ',' => some .comma
  | ';' => some .semi
  | '.' => some .dot
  | '*' => some .star
  | '+' => some .plus
  | '-' => some .minus
  | '/' => some .slash
  | '%' => some .percent
  | '?' => some .param
  | '=' => some .eq
  | _ => none

/-- A token with the text after it, or an error. -/
abbrev Lexed := Res (Tok × List Char)

/-- After `<`: the distance operators bind first. -/
def lexLt : List Char → Tok × List Char
  | '-' :: '>' :: r => (.vecL2, r)
  | '=' :: '>' :: r => (.vecCosine, r)
  | '#' :: '>' :: r => (.vecIp, r)
  | '=' :: r => (.le, r)
  | '>' :: r => (.ne, r)
  | r => (.lt, r)

def lexGt : List Char → Tok × List Char
  | '=' :: r => (.ge, r)
  | r => (.gt, r)

def lexBang : List Char → Lexed
  | '=' :: r => .ok (.ne, r)
  | _ => .error (EngineError.sql "unexpected '!'")

def lexPipe : List Char → Lexed
  | '|' :: r => .ok (.concat, r)
  | _ => .error (EngineError.sql "unexpected '|' (bitwise OR is unsupported)")

def lexColon : List Char → Lexed
  | ':' :: r => .ok (.dColon, r)
  | r =>
    let name := r.takeWhile isWordChar
    if name.isEmpty then .error (EngineError.sql "unexpected ':'")
    else .ok (.namedParam (String.ofList name), r.dropWhile isWordChar)

/-- The number some digits spell. -/
def decimal (digits : List Char) : Nat := digits.foldl (fun n c => n * 10 + (c.toNat - 48)) 0

def lexNumparam (r : List Char) : Lexed :=
  let digits := r.takeWhile Char.isDigit
  if digits.isEmpty then .error (EngineError.sql "unexpected '$' (expected a parameter number)")
  else if decimal digits < 2 ^ 64 then .ok (.numParam (decimal digits), r.dropWhile Char.isDigit)
  else .error (EngineError.sql "invalid parameter number")

/-- After the opening quote of a string literal; each byte is a character. -/
def lexString : List Char → Option (List Char × List Char)
  | [] => none
  | '\'' :: '\'' :: r => (lexString r).map fun s => ('\'' :: s.1, s.2)
  | '\'' :: r => some ([], r)
  | c :: r => (lexString r).map fun s => ((String.utf8EncodeChar c).map (fun b => Char.ofNat b.toNat) ++ s.1, s.2)

/-- After the opening quote of an identifier. -/
def lexQuoted (quote : Char) (message : String) (r : List Char) : Lexed :=
  match r.dropWhile fun c => c != quote with
  | [] => .error (EngineError.sql message)
  | _ :: rest => .ok (.word (String.ofList (r.takeWhile fun c => c != quote)), rest)

/-- Whether `str::parse::<f64>` takes a mantissa and an exponent. -/
def isReal (mantissa exponent : List Char) : Bool := mantissa.count '.' ≤ 1 && !exponent.isEmpty

/-- A number whose first digit is seen, from that digit on. -/
def lexNumber (s : List Char) : Lexed :=
  let mantissa := s.takeWhile fun c => c.isDigit || c == '.'
  let rest := s.dropWhile fun c => c.isDigit || c == '.'
  let real (exponent : List Char) (text rest : List Char) : Lexed :=
    if isReal mantissa exponent then .ok (.real (String.ofList text), rest) else .error (EngineError.sql "bad number")
  let scaled (marker : List Char) (r : List Char) : Lexed :=
    let digits := r.takeWhile Char.isDigit
    real digits (mantissa ++ marker ++ digits) (r.dropWhile Char.isDigit)
  match rest with
  | 'e' :: '+' :: r => scaled ['e', '+'] r
  | 'e' :: '-' :: r => scaled ['e', '-'] r
  | 'E' :: '+' :: r => scaled ['E', '+'] r
  | 'E' :: '-' :: r => scaled ['E', '-'] r
  | 'e' :: r => scaled ['e'] r
  | 'E' :: r => scaled ['E'] r
  | _ =>
    if mantissa.contains '.' then real ['0'] mantissa rest
    else if decimal mantissa < 2 ^ 63 then .ok (.int (Int64.ofNat (decimal mantissa)), rest)
    else real ['0'] mantissa rest

def lexWord (s : List Char) : Tok × List Char :=
  (.word (String.ofList (s.takeWhile isWordChar)), s.dropWhile isWordChar)

/-- The tokens of more than one character, from their first one. -/
def lexLonger (c : Char) (rest : List Char) : Lexed :=
  if c = '<' then .ok (lexLt rest)
  else if c = '>' then .ok (lexGt rest)
  else if c = '!' then lexBang rest
  else if c = '|' then lexPipe rest
  else if c = ':' then lexColon rest
  else if c = '$' then lexNumparam rest
  else if c = '\'' then match lexString rest with
    | some (s, r) => .ok (.str (String.ofList s), r)
    | none => .error (EngineError.sql "unterminated string literal")
  else if c = '"' then lexQuoted '"' "unterminated quoted identifier" rest
  else if c = '\x60' then lexQuoted '\x60' "unterminated backtick identifier" rest
  else if c.isDigit then lexNumber (c :: rest)
  else if c == '_' || c.isAlpha then .ok (lexWord (c :: rest))
  else .error (EngineError.sql ("unexpected character '" ++ String.ofList (((String.utf8EncodeChar c).take 1).map fun b =>
    Char.ofNat b.toNat) ++ "'"))

/-- One turn of the loop: white space and comments give no token. -/
def lexOne (c : Char) (rest : List Char) : Res (Option Tok × List Char) :=
  if isAsciiWhitespace c then .ok (none, rest)
  else if c = '-' ∧ rest.head? = some '-' then .ok (none, rest.dropWhile fun c => c != '\n')
  else if c = '-' ∧ rest.head? = some '>' then
    if rest.tail.head? = some '>' then .ok (some .arrowText, rest.tail.tail) else .ok (some .arrow, rest.tail)
  else match simpleToken c with
    | some tok => .ok (some tok, rest)
    | none => (lexLonger c rest).map fun r => (some r.1, r.2)

def lexLoop : Nat → List Char → Res (List Tok)
  | _, [] => .ok [.eof]
  | 0, _ :: _ => .error .fuel
  | fuel + 1, c :: rest => do
    let (tok, rest) ← lexOne c rest
    let toks ← lexLoop fuel rest
    return tok.toList ++ toks

/-- Every turn takes a character, so the length bounds the turns. -/
def lex (sql : List Char) : Res (List Tok) := lexLoop sql.length sql

example : lex "SET LOCAL role = 'it''s' -- x\n;".toList =
    .ok [.word "SET", .word "LOCAL", .word "role", .eq, .str "it's", .semi, .eof] := by decide

end Twill
