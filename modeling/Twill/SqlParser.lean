/-
The grammar of expressions and queries (`sql.rs`), by recursive descent over the lexer's
tokens.

A parser reads the tokens ahead of the cursor, with the numbers that placeholders have been
given beside them. Where the grammar comes back to one of its own rules it goes through
`Rules`; each time a token has been taken, so fuel for as many nestings as there are tokens
is enough.
-/
import Twill.Json
import Twill.Lib.Cursor
import Twill.Statement

namespace Twill

/-- The numbers placeholders have been given. -/
structure Numbering where
  nextParam : Nat := 1
  maxParam : Nat := 0
  named : List (String × Nat) := []
  deriving DecidableEq, Repr

abbrev Parse := Cursor.Parser Tok Numbering Stop

namespace SqlParser

open Cursor.Parser

/-! ## Tokens -/

def Numbering.seen (s : Numbering) (idx : Nat) : Numbering := { s with maxParam := max s.maxParam idx }

/-- `param_index`, of the tokens that are placeholders. -/
def paramIndex : Tok → Option (Numbering → Nat × Numbering)
  | .numParam n => some fun s => (n, Numbering.seen s n)
  | .namedParam name => some fun s => match s.named.lookup name with
    | some i => (i, Numbering.seen s i)
    | none => (s.nextParam,
        Numbering.seen { s with nextParam := s.nextParam + 1, named := (name, s.nextParam) :: s.named } s.nextParam)
  | .param => some fun s => (s.nextParam, Numbering.seen { s with nextParam := s.nextParam + 1 } s.nextParam)
  | _ => none

def isWord (kw : String) : Tok → Bool
  | .word w => eqIgnoreAsciiCase w kw
  | _ => false

/-- Words among some keywords. -/
def isAnyWord (kws : List String) (t : Tok) : Bool := kws.any fun kw => isWord kw t

/-- The first of some keywords that a word is, with what it stands for. -/
def keyword {α : Type} (kws : List (String × α)) (t : Tok) : Option α :=
  (kws.find? fun kw => isWord kw.1 t).map (·.2)

/-- Takes a token that carries something. -/
def carried {α : Type} (g : Tok → Option α) (message : String) : Parse α :=
  next (fun t => (g t).map fun a s => (a, s)) fun ts => EngineError.sql (message ++ (Toks.peek ts).debug)

def skip (t : Tok) : Parse Bool := eat fun u => u == t

def expect (t : Tok) : Parse Unit :=
  carried (fun u => if u == t then some () else none) ("expected " ++ t.debug ++ ", found ")

def eatKw (kw : String) : Parse Bool := eat (isWord kw)

/-- A keyword that may be left out. -/
def optKw (kw : String) : Parse Unit := do
  let _ ← eatKw kw
  return ()

def expectKw (kw : String) : Parse Unit :=
  carried (fun t => if isWord kw t then some () else none) ("expected keyword " ++ kw ++ ", found ")

def ident : Parse String := carried (fun | .word w => some w | _ => none) "expected identifier, found "

/-- The index of a placeholder that is next. -/
def placeholder : Parse Nat := next paramIndex fun _ => .panic

def bump : Parse Unit := Cursor.Parser.bump .panic

def loop {α γ : Type} (guard : α → Parse (Option γ)) (body : α → γ → Parse α) (a : α) : Parse α :=
  whileSome .fuel guard body a

/-- Items between commas, at least one. -/
def commaList {α : Type} (item : Parse α) : Parse (List α) := do
  let first ← item
  loop (fun _ => accept fun t => if t == .comma then some () else none) (fun items _ => do return items ++ [← item]) [first]

/-- A clause that a keyword starts. -/
def optional {α : Type} (kw : String) (clause : Parse α) : Parse (Option α) := do
  if ← eatKw kw then return some (← clause) else return none

def parenIdentList : Parse (List String) := do
  expect .lParen
  let cols ← commaList ident
  expect .rParen
  return cols

/-! ## Literals and types -/

/-- The number that the text of a real token is. -/
def realValue (text : String) : Float := (Json.parseF64 text.toList).getD 0

open Float.Model UnpackedFloat in
/-- `r as f32`: the nearest number. -/
def realAsF32 (r : Float) : Float32 := .ofModel (.pack (match r.toModel.unpack with
  | .finite s m e _ => UnpackedFloat.round Format.binary32 s m e
  | x => x))

/-- `n as f32`. -/
def intAsF32 (n : Int64) : Float32 := .ofModel (.ofInt64 n)

def numberComponent : Parse UInt32 := do
  let neg ← skip .minus
  let v ← carried (fun
    | .int n => some (intAsF32 n)
    | .real text => some (realAsF32 (realValue text))
    | _ => none) "vector literal expects numbers, found "
  return (if neg then -v else v).toBits

def vectorLiteral : Parse Expr := do
  expect .lBracket
  let comps ← if ← look (fun ts => Toks.peek ts != .rBracket) then commaList numberComponent else pure []
  expect .rBracket
  return .vector comps

/-- `CastTarget::from_word`. -/
def castTarget (w : String) : CastTarget :=
  let w := toAsciiLowercase w
  if ["int", "integer", "int2", "int4", "int8", "smallint", "bigint", "oid", "serial", "bigserial"].contains w then .int
  else if ["real", "float", "float4", "float8", "double", "numeric", "decimal"].contains w then .real
  else if ["text", "varchar", "character", "char", "name", "json", "jsonb", "uuid", "citext", "bytea",
    "bpchar"].contains w then .text
  else if ["bool", "boolean"].contains w then .bool
  else .passthrough

def eatTypeModifiers (word : String) : Parse Unit := do
  let word := toAsciiLowercase word
  if word == "double" then optKw "precision"
  else if word == "character" || word == "bit" then optKw "varying"
  else if word == "timestamp" || word == "time" then
    if ← eat (isAnyWord ["with", "without"]) then
      optKw "time"
      optKw "zone"
    else return ()
  else return ()

/-- A type's size, up to the closing parenthesis. -/
def skipTypeSize : Parse Unit := do
  if ← skip .lParen then
    loop (fun _ => accept fun t => if t == .rParen || t == .eof then none else some ()) (fun _ _ => pure ()) ()
    expect .rParen
  else return ()

def parseCastType : Parse CastTarget := do
  let word ← ident
  let word ← if ← skip .dot then ident else pure word
  eatTypeModifiers word
  skipTypeSize
  loop (fun _ => accept fun t => if t == .lBracket then some () else none) (fun _ _ => expect .rBracket) ()
  return castTarget word

def aggFunc (w : String) : Option AggFunc :=
  keyword [("count", .count), ("sum", .sum), ("min", .min), ("max", .max), ("avg", .avg), ("json_agg", .jsonAgg),
    ("jsonb_agg", .jsonAgg), ("group_concat", .groupConcat), ("string_agg", .groupConcat)] (.word w)

/-! ## Expressions -/

/-- The rules that the grammar comes back to. -/
structure Rules where
  expr : Parse Expr
  notExpr : Parse Expr
  unaryExpr : Parse Expr
  select : Parse SelectStmt
  parseFrom : Parse FromClause

section

variable (R : Rules)

/-- Operands with operators of one level between them, to the left. -/
def leftAssoc (op : Tok → Option (Expr → Expr → Expr)) (operand : Parse Expr) : Parse Expr := do
  let left ← operand
  loop (fun _ => accept op) (fun left mk => do return mk left (← operand)) left

def queryAhead (ts : Toks) : Bool := Toks.isKw "select" ts || Toks.isKw "with" ts

/-- After `(`: a query and `)`. -/
def queryClosed : Parse SelectStmt := do
  let query ← R.select
  expect .rParen
  return query

def aggregateCall (func : AggFunc) : Parse Expr := do
  expect .lParen
  let distinct ← eatKw "distinct"
  optKw "all"
  let arg ← if ← skip .star then pure AggArg.star else pure (AggArg.expr (← R.expr))
  let sep ← if ← skip .comma then pure (some (← R.expr)) else pure none
  expect .rParen
  return .aggregate func arg distinct sep

def funcCall (name : String) : Parse Expr := match aggFunc name with
  | some func => aggregateCall R func
  | none => do
    expect .lParen
    let args ← if ← look (fun ts => Toks.peek ts != .rParen) then
        if ← skip .star then pure [] else commaList R.expr
      else pure []
    expect .rParen
    return .func name args

def castCall : Parse Expr := do
  bump
  expect .lParen
  let e ← R.expr
  expectKw "as"
  let target ← parseCastType
  expect .rParen
  return .cast e target

def existsExpr : Parse Expr := do
  bump
  expect .lParen
  let query ← queryClosed R
  return .exists query false

def extractCall : Parse Expr := do
  bump
  expect .lParen
  let field ← ident
  expectKw "from"
  let source ← R.expr
  expect .rParen
  return .func "extract" [.str (toAsciiLowercase field), source]

def caseExpr : Parse Expr := do
  expectKw "case"
  let operand ← if ← look (Toks.isKw "when") then pure none else pure (some (← R.expr))
  let whens ← loop (fun _ => accept (keyword [("when", ())])) (fun whens _ => do
    let cond ← R.expr
    expectKw "then"
    let result ← R.expr
    return whens ++ [(cond, result)]) []
  if whens.isEmpty then fail fun _ => EngineError.sql "CASE requires at least one WHEN"
  else
    let els ← optional "else" R.expr
    expectKw "end"
    return .case operand whens els

/-- A name: a call, a qualified name or call, or a column. -/
def nameExpr (w : String) : Parse Expr := do
  bump
  if ← look (fun ts => Toks.peek ts == .lParen) then funcCall R w
  else if ← skip .dot then
    let col ← ident
    if ← look (fun ts => Toks.peek ts == .lParen) then funcCall R (w ++ "." ++ col)
    else if eqIgnoreAsciiCase w "excluded" then return .excluded col
    else return .qualified w col
  else return .column w

/-- The words that stand for a value. -/
def constant (w : String) : Option Expr :=
  keyword [("null", .null), ("true", .int 1), ("false", .int 0), ("default", .default)] (.word w)

/-- The words that start a form of their own before a parenthesis. -/
def specialCall (w : String) : Option (Parse Expr) :=
  keyword [("cast", castCall R), ("extract", extractCall R), ("exists", existsExpr R)] (.word w)

def nextIsLParen (ts : Toks) : Bool := Toks.peek ts.tail == .lParen

def wordExpr (w : String) : Parse Expr := match constant w with
  | some e => do
    bump
    return e
  | none =>
    if eqIgnoreAsciiCase w "case" then caseExpr R
    else match specialCall R w with
      | some call => do if ← look nextIsLParen then call else nameExpr R w
      | none => nameExpr R w

/-- After `(`: a subquery or a grouped expression. -/
def grouped : Parse Expr := do
  if ← look queryAhead then
    return .scalarSubquery (← queryClosed R)
  else
    let e ← R.expr
    expect .rParen
    return e

def literalTok (e : Expr) : Parse Expr := do
  bump
  return e

def primaryOf : Tok → Parse Expr
  | .int n => literalTok (.int n)
  | .real text => literalTok (.real (realValue text).toBits)
  | .str s => literalTok (.str s)
  | .param | .numParam _ | .namedParam _ => do return .param (← placeholder)
  | .lParen => do
    bump
    grouped R
  | .lBracket => vectorLiteral
  | .word w => wordExpr R w
  | other => fail fun _ => EngineError.sql ("unexpected token in expression: " ++ other.debug)

def primary : Parse Expr := do primaryOf R (← look fun ts => ts.headD .eof)

def castExpr : Parse Expr := do
  let e ← primary R
  loop (fun _ => accept fun t => if t == .dColon then some () else none)
    (fun e _ => do return .cast e (← parseCastType)) e

def unaryExpr : Parse Expr := do
  if ← skip .minus then return .unary .neg (← R.unaryExpr)
  else if ← skip .plus then R.unaryExpr
  else castExpr R

def mulExpr : Parse Expr := leftAssoc (fun
  | .star => some (.binary .mul)
  | .slash => some (.binary .div)
  | .percent => some (.binary .mod)
  | _ => none) (unaryExpr R)

def addExpr : Parse Expr := leftAssoc (fun
  | .plus => some (.binary .add)
  | .minus => some (.binary .sub)
  | _ => none) (mulExpr R)

/-- `||`, and the JSON arrows as the functions they stand for. -/
def concatExpr : Parse Expr := leftAssoc (fun
  | .concat => some (.binary .concat)
  | .arrow => some fun l r => .func "json_get" [l, r]
  | .arrowText => some fun l r => .func "json_get_text" [l, r]
  | _ => none) (addExpr R)

def vecdistExpr : Parse Expr := leftAssoc (fun
  | .vecL2 => some (.binary .vecL2)
  | .vecCosine => some (.binary .vecCosine)
  | .vecIp => some (.binary .vecIp)
  | _ => none) (concatExpr R)

def likeTail (left : Expr) (negated : Bool) : Parse Expr := do
  let insensitive ← look (Toks.isKw "ilike")
  bump
  let pattern ← vecdistExpr R
  let escape ← optional "escape" (vecdistExpr R)
  return .like left pattern escape negated insensitive

def inTail (left : Expr) (negated : Bool) : Parse Expr := do
  expect .lParen
  if ← look queryAhead then
    return .inSubquery left (← queryClosed R) negated
  else
    let list ← if ← look (fun ts => Toks.peek ts != .rParen) then commaList R.expr else pure []
    expect .rParen
    return .inList left list negated

def betweenTail (left : Expr) (negated : Bool) : Parse Expr := do
  let lo ← vecdistExpr R
  expectKw "and"
  let hi ← vecdistExpr R
  return .between left lo hi negated

def cmpOp : Tok → Option BinOp
  | .eq => some .eq
  | .ne => some .ne
  | .lt => some .lt
  | .le => some .le
  | .gt => some .gt
  | .ge => some .ge
  | _ => none

/-- What may follow an operand and the `NOT` of an infix predicate. -/
def predicateTail (left : Expr) (negated : Bool) : Parse Expr := do
  if ← look (fun ts => Toks.isKw "like" ts || Toks.isKw "ilike" ts) then likeTail R left negated
  else if ← eatKw "in" then inTail R left negated
  else if ← eatKw "between" then betweenTail R left negated
  else match ← accept cmpOp with
    | some op => return .binary op left (← vecdistExpr R)
    | none => return left

/-- `next_starts_neg_predicate`, after a `NOT`. -/
def negPredicateAhead (ts : Toks) : Bool :=
  Toks.isKw "not" ts && ["like", "ilike", "in", "between"].any fun kw => Toks.nextIsKw kw ts

def cmpExpr : Parse Expr := do
  let left ← vecdistExpr R
  if ← eatKw "is" then
    let negated ← eatKw "not"
    expectKw "null"
    return .isNull left negated
  else if ← look negPredicateAhead then
    bump
    predicateTail R left true
  else predicateTail R left false

def notExpr : Parse Expr := do
  if ← eatKw "not" then return .unary .not (← R.notExpr) else cmpExpr R

def andExpr : Parse Expr := leftAssoc (keyword [("and", .binary .and)]) (notExpr R)

def orExpr : Parse Expr := leftAssoc (keyword [("or", .binary .or)]) (andExpr R)

/-! ## Queries -/

def isClauseKw (t : Tok) : Bool :=
  isAnyWord ["from", "where", "order", "limit", "offset", "group", "having", "as", "and", "or", "is", "like", "ilike",
    "asc", "desc", "nulls", "returning", "on", "between", "union", "intersect", "except"] t

def isFromBoundaryKw (t : Tok) : Bool :=
  isAnyWord ["join", "inner", "left", "right", "full", "cross", "on", "using", "where", "group", "order", "limit",
    "offset", "having", "union", "intersect", "except", "as"] t

/-- `[AS] ident`, which a keyword of the clauses to come is not. -/
def aliasBefore (boundary : Tok → Bool) : Parse (Option String) := do
  if ← eatKw "as" then return some (← ident)
  else accept fun
    | .word w => if boundary (.word w) then none else some w
    | _ => none

def optAlias : Parse (Option String) := aliasBefore isClauseKw

def parseFromAlias : Parse (Option String) := aliasBefore isFromBoundaryKw

/-- `alias.*` ahead. -/
def qualifiedStar : Toks → Option String
  | .word w :: .dot :: .star :: _ => some w
  | _ => none

def selectItem : Parse SelItem := do
  if ← skip .star then return .star none
  else match ← look qualifiedStar with
    | some w => do
      bump
      bump
      bump
      return .star (some w)
    | none => do
      let e ← R.expr
      return .expr e (← optAlias)

def limitValue (what : String) : Parse Expr := do
  if ← look (fun ts => (paramIndex (Toks.peek ts)).isSome) then return .param (← placeholder)
  else
    let neg ← skip .minus
    let n ← carried (fun | .int n => some n | _ => none) (what ++ " expects an integer or parameter, found ")
    return .int (if neg then -n else n)

/-- `LIMIT` and `OFFSET`, in either order and each at most once; `LIMIT ALL` is no limit. -/
def parseLimitOffset : Parse (Option Expr × Option Expr) :=
  loop (fun acc => accept fun t =>
      if acc.1.isNone && isWord "limit" t then some true
      else if acc.2.isNone && isWord "offset" t then some false
      else none)
    (fun acc isLimit =>
      if isLimit then do
        if ← eatKw "all" then return acc else return (some (← limitValue "LIMIT"), acc.2)
      else do
        let offset ← limitValue "OFFSET"
        let _ ← eat (isAnyWord ["row", "rows"])
        return (acc.1, some offset))
    (none, none)

def orderKey : Parse OrderKey := do
  let e ← R.expr
  let desc ← eatKw "desc"
  if desc then pure () else optKw "asc"
  if ← eatKw "nulls" then
    if ← eatKw "first" then return ⟨e, !desc, true⟩
    else
      expectKw "last"
      return ⟨e, !desc, false⟩
  else return ⟨e, !desc, !desc⟩

def parseOrderBy : Parse (List OrderKey) := do
  if ← eatKw "order" then
    expectKw "by"
    commaList (orderKey R)
  else return []

def parseGroupBy : Parse (List Expr) := do
  if ← eatKw "group" then
    expectKw "by"
    commaList R.expr
  else return []

/-- `JOIN` and what it may be preceded by. After `JOIN` the source takes an `INNER` once more,
and a `JOIN` after that. -/
def parseJoinKind : Parse (Option JoinKind) := do
  if ← eatKw "join" then
    if ← eatKw "inner" then optKw "join" else pure ()
    return some .inner
  else if ← look (fun ts => Toks.isKw "inner" ts && Toks.nextIsKw "join" ts) then
    bump
    bump
    return some .inner
  else if ← eatKw "cross" then
    expectKw "join"
    return some .cross
  else match ← accept (keyword [("left", JoinKind.left), ("right", .right), ("full", .full)]) with
    | some kind => do
      optKw "outer"
      expectKw "join"
      return some kind
    | none => return none

def parseJoinCondition : Parse (Option Expr × List String) := do
  if ← eatKw "on" then return (some (← R.expr), [])
  else if ← eatKw "using" then return (none, ← parenIdentList)
  else fail fun _ => EngineError.sql "JOIN requires an ON or USING clause"

def parseFromItem : Parse FromClause := do
  if ← skip .lParen then
    if ← look queryAhead then
      let query ← queryClosed R
      match ← parseFromAlias with
      | some alias_ => return .derived query alias_
      | none => fail fun _ => EngineError.sql "a derived table (subquery) in FROM requires an alias"
    else
      let inner ← R.parseFrom
      expect .rParen
      return inner
  else
    let name ← ident
    return .table name (← parseFromAlias)

/-- How the next source is joined, if there is one: a comma is a cross join. -/
def nextJoin : Parse (Option JoinKind) := do
  match ← parseJoinKind with
  | some kind => return some kind
  | none => accept fun t => if t == .comma then some .cross else none

def parseFrom : Parse FromClause := do
  let left ← parseFromItem R
  loop (fun _ => nextJoin) (fun left kind => do
    let right ← parseFromItem R
    if kind == .cross then return .join left right .cross none []
    else
      let condition ← parseJoinCondition R
      return .join left right kind condition.1 condition.2) left

def cteDef : Parse CteDef := do
  let name ← ident
  let _ ← if ← look (fun ts => Toks.peek ts == .lParen) then parenIdentList else pure []
  expectKw "as"
  expect .lParen
  return ⟨name, ← queryClosed R⟩

def parseWith : Parse (List CteDef) := do
  if ← eatKw "with" then
    optKw "recursive"
    commaList (cteDef R)
  else return []

def selectCore : Parse SelectStmt := do
  expectKw "select"
  optKw "all"
  let distinct ← eatKw "distinct"
  let items ← commaList (selectItem R)
  let from_ ← optional "from" (parseFrom R)
  let filter ← optional "where" R.expr
  let groupBy ← parseGroupBy R
  let having ← optional "having" R.expr
  return ⟨[], distinct, items, from_, filter, groupBy, having, [], [], none, none⟩

def setOpPart (op : SetOp) : Parse SetOpPart := do
  let all ← eatKw "all"
  optKw "distinct"
  let part ← if ← skip .lParen then queryClosed R else selectCore R
  return ⟨op, all, part⟩

def select : Parse SelectStmt := do
  let with_ ← parseWith R
  let q ← selectCore R
  let setOps ← loop (fun _ => accept (keyword [("union", SetOp.union), ("intersect", .intersect), ("except", .except)]))
    (fun parts op => do return parts ++ [← setOpPart R op]) []
  let orderBy ← parseOrderBy R
  let limits ← parseLimitOffset
  return { q with with_, setOps, orderBy, limit := limits.1, offset := limits.2 }

end

/-! ## The whole grammar -/

def rules : Nat → Rules
  | 0 =>
    let stuck {α : Type} : Parse α := fail fun _ => .fuel
    ⟨stuck, stuck, stuck, stuck, stuck⟩
  | fuel + 1 =>
    let R := rules fuel
    ⟨orExpr R, notExpr R, unaryExpr R, select R, parseFrom R⟩

/-- `parse_expr`: a whole text as an expression. -/
def parseExpr (sql : List Char) : Res Expr := do
  let toks ← lex sql
  let (e, rest, _) ← (rules toks.length).expr toks {}
  if Toks.peek rest = .eof then return e else .error (EngineError.sql "trailing tokens after expression")

/-- `parse` of a text that is one query. -/
def parseQuery (sql : List Char) : Res SelectStmt := do
  let toks ← lex sql
  let (q, rest, _) ← (rules toks.length).select toks {}
  let rest := Toks.skip .semi rest
  if Toks.peek rest = .eof then return q else .error (EngineError.sql "trailing tokens after statement")

end SqlParser

end Twill
