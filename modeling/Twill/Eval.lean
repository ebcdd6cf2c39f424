/-
Expression evaluation (`exec.rs`: `EvalCtx`, `eval` and its helpers, the
aggregates, `predicate`, `eval_const_sql`).

Evaluation is a structural recursion over the expression; the scalar function
table and the installed principal come with `Env`.
-/
import Twill.Sql
import Twill.Vector

namespace Twill

/-- A column of a multi-source namespace. -/
structure RelCol where
  table : Option String
  name : String
  ty : ColumnType
  deriving DecidableEq, Repr

structure EvalCtx where
  row : Option Row
  schema : Option TableSchema
  params : List Value
  /-- The rows of the current group while projecting an aggregated query. -/
  group : Option (List Row)
  /-- The proposed row behind `excluded.<col>`. -/
  excluded : Option Row
  cols : Option (List RelCol)

namespace EvalCtx

def root (params : List Value) : EvalCtx := ⟨none, none, params, none, none, none⟩

def ofRow (row : Row) (schema : TableSchema) (params : List Value) : EvalCtx :=
  ⟨some row, some schema, params, none, none, none⟩

def rel (row : Row) (cols : List RelCol) (params : List Value) : EvalCtx :=
  ⟨some row, none, params, none, none, some cols⟩

end EvalCtx

def boolValue (b : Bool) : Value := .int (if b then 1 else 0)

/-- `row[idx].clone()`. -/
def indexRow (row : Row) (idx : Nat) : Res Value :=
  match row[idx]? with
  | some v => .ok v
  | none => .error .panic

/-! ## Names -/

def qualifierText (table : Option String) : String :=
  match table with
  | some t => t ++ "."
  | none => ""

def relColMatches (table : Option String) (name : String) (c : RelCol) : Bool :=
  eqIgnoreAsciiCase c.name name && match table with
    | none => true
    | some t => match c.table with
      | some ct => eqIgnoreAsciiCase ct t
      | none => false

/-- The one column a reference names, or the error. -/
def resolveCol (cols : List RelCol) (table : Option String) (name : String) : Res Nat :=
  match (cols.zipIdx.filter fun p => relColMatches table name p.1).map (·.2) with
  | [] => .error (EngineError.sql ("no such column: " ++ qualifierText table ++ name))
  | [i] => .ok i
  | _ => .error (EngineError.sql ("ambiguous column reference: " ++ qualifierText table ++ name))

def resolveValue (ctx : EvalCtx) (table : Option String) (name : String) : Res Value :=
  match ctx.row with
  | none => .error (EngineError.sql ("column " ++ name ++ " referenced with no row"))
  | some row => match ctx.cols with
    | some cols => do indexRow row (← resolveCol cols table name)
    | none => match ctx.schema with
      | none => .error (EngineError.sql ("column " ++ name ++ " referenced with no table"))
      | some schema => match schema.columnIndex name with
        | none => .error (EngineError.sql ("no such column: " ++ name))
        | some idx => indexRow row idx

/-! ## Operators -/

def threeValuedAnd : Option Bool → Option Bool → Value
  | some false, _ => .int 0
  | _, some false => .int 0
  | some true, some true => .int 1
  | _, _ => .null

def threeValuedOr : Option Bool → Option Bool → Value
  | some true, _ => .int 1
  | _, some true => .int 1
  | some false, some false => .int 0
  | _, _ => .null

def li : Value → Int64
  | .int i => i
  | _ => 0

def num (P : Prims) : Value → Res Float
  | .int i => .ok (asF64 i)
  | .real b => .ok (Float.ofBits b)
  | .text s => match P.parseF64 (trimText s) with
    | some b => .ok (Float.ofBits b)
    | none => .error (EngineError.sql ("cannot use text '" ++ s ++ "' in arithmetic"))
  | other => .error (EngineError.sql ("cannot use " ++ other.typeName ++ " in arithmetic"))

/-- `checked_*` on i64: the result if it is in range. -/
def checkedI64 (i : Int) : Option Int64 :=
  if -(2 : Int) ^ 63 ≤ i ∧ i < (2 : Int) ^ 63 then some (Int64.ofInt i) else none

def realValue (r : Float) : Value := .real r.toBits

def intOrReal (checked : Option Int64) (real : Float) : Value :=
  match checked with
  | some i => .int i
  | none => realValue real

def isInt : Value → Bool
  | .int _ => true
  | _ => false

/-- i64 division and remainder fault on `i64::MIN / -1`. -/
def divFaults (a b : Int64) : Bool := a == Int64.minValue && b == -1

def arith (P : Prims) (op : BinOp) (l r : Value) : Res Value := do
  if l.isNull || r.isNull then return .null
  let bothInt := isInt l && isInt r
  let ln ← num P l
  let rn ← num P r
  match op, bothInt with
  | .add, true => return intOrReal (checkedI64 ((li l).toInt + (li r).toInt)) (ln + rn)
  | .sub, true => return intOrReal (checkedI64 ((li l).toInt - (li r).toInt)) (ln - rn)
  | .mul, true => return intOrReal (checkedI64 ((li l).toInt * (li r).toInt)) (ln * rn)
  | .add, false => return realValue (ln + rn)
  | .sub, false => return realValue (ln - rn)
  | .mul, false => return realValue (ln * rn)
  | .div, true =>
    if li r == 0 then return .null
    else if divFaults (li l) (li r) then throw .panic else return .int (li l / li r)
  | .mod, true =>
    if li r == 0 then return .null
    else if divFaults (li l) (li r) then throw .panic else return .int (li l % li r)
  | .div, false => if rn == 0 then return .null else return realValue (ln / rn)
  | .mod, false =>
    if rn == 0 then return .null else return .real (P.realRem ln.toBits rn.toBits)
  | _, _ => throw .panic

def toVecOperand (P : Prims) : Value → Option (List UInt32)
  | .vector x => some x
  | .text s => parseVector P s
  | _ => none

def vecDistance (P : Prims) (metric : Metric) (l r : Value) : Res Value :=
  if l.isNull || r.isNull then .ok .null
  else match toVecOperand P l, toVecOperand P r with
    | some a, some b =>
      if a.length ≠ b.length then
        .error (EngineError.sql ("vector dimension mismatch: " ++ toString a.length ++ " vs " ++
          toString b.length))
      else .ok (realValue (distance metric a b).toFloat)
    | _, _ => .error (EngineError.sql "vector distance operators require vector operands")

def concatValues (P : Prims) (l r : Value) : Value :=
  if l.isNull || r.isNull then .null else .text (textOf P l ++ textOf P r)

def compareOp (op : BinOp) (l r : Value) : Option Bool :=
  match op with
  | .eq => l.sqlEq r
  | .ne => (l.sqlEq r).map (!·)
  | .lt => (l.sqlCmp r).map (· == .lt)
  | .le => (l.sqlCmp r).map (· != .gt)
  | .gt => (l.sqlCmp r).map (· == .gt)
  | _ => (l.sqlCmp r).map (· != .lt)

def evalBinary (P : Prims) (op : BinOp) (l r : Value) : Res Value :=
  match op with
  | .and => .ok (threeValuedAnd l.asBool r.asBool)
  | .or => .ok (threeValuedOr l.asBool r.asBool)
  | .add | .sub | .mul | .div | .mod => arith P op l r
  | .concat => .ok (concatValues P l r)
  | .vecL2 => vecDistance P .l2 l r
  | .vecCosine => vecDistance P .cosine l r
  | .vecIp => vecDistance P .innerProduct l r
  | .eq | .ne | .lt | .le | .gt | .ge => .ok (match compareOp op l r with
    | none => .null
    | some b => boolValue b)

def evalUnary (op : UnOp) (v : Value) : Res Value :=
  match op with
  | .not => .ok (match v.asBool with
    | none => .null
    | some b => boolValue !b)
  | .neg => match v with
    | .null => .ok .null
    | .int i => .ok (.int (-i))
    | .real b => .ok (realValue (-Float.ofBits b))
    | other => .error (EngineError.sql ("cannot negate " ++ other.typeName))

def evalBetween (P : Prims) (v lo hi : Value) (negated : Bool) : Res Value := do
  let ge ← evalBinary P .ge v lo
  let le ← evalBinary P .le v hi
  let within := threeValuedAnd ge.asBool le.asBool
  if !negated then return within
  return match within.asBool with
    | some b => boolValue !b
    | none => .null

def roundToInt (r : Float) : Value := .int (asI64 r.round)

def castErr (v : Value) (ty : String) : Stop :=
  EngineError.sql ("cannot cast " ++ v.typeName ++ " to " ++ ty)

def parseIntText (P : Prims) (s : String) : Res Value :=
  let t := trimText s
  match parseI64 t with
  | some i => .ok (.int i)
  | none => match P.parseF64 t with
    | some b => .ok (roundToInt (Float.ofBits b))
    | none => .error (EngineError.sql ("invalid input syntax for type integer: " ++ debugText s))

def castValue (P : Prims) (v : Value) (target : CastTarget) : Res Value :=
  if v.isNull then .ok v
  else match target with
    | .passthrough => .ok v
    | .int => match v with
      | .int i => .ok (.int i)
      | .real b => .ok (roundToInt (Float.ofBits b))
      | .text s => parseIntText P s
      | other => .error (castErr other "integer")
    | .real => match v with
      | .int i => .ok (realValue (asF64 i))
      | .real b => .ok (.real b)
      | .text s => match P.parseF64 (trimText s) with
        | some b => .ok (.real b)
        | none => .error (EngineError.sql ("invalid input syntax for type real: " ++ debugText s))
      | other => .error (castErr other "real")
    | .text => .ok (match v.render P with
      | some s => .text s
      | none => .null)
    | .bool => .ok (match v.asBool with
      | some b => boolValue b
      | none => .null)

/-! ## LIKE -/

inductive LikeTok where
  | any | one | lit (c : Char)
  deriving DecidableEq, Repr

def likeTokens (fold : Char → Char) (escape : Option Char) : List Char → List LikeTok
  | [] => []
  | [c] =>
    if some c = escape then [.lit (fold c)]
    else if c = '%' then [.any] else if c = '_' then [.one] else [.lit (fold c)]
  | c :: d :: rest =>
    if some c = escape then .lit (fold d) :: likeTokens fold escape rest
    else if c = '%' then .any :: likeTokens fold escape (d :: rest)
    else if c = '_' then .one :: likeTokens fold escape (d :: rest)
    else .lit (fold c) :: likeTokens fold escape (d :: rest)

def likeGo : List LikeTok → List Char → Bool
  | [], s => s.isEmpty
  | .any :: p, s => match p with
    | [] => true
    -- the loop that skips a run of `%`
    | .any :: _ => likeGo p s
    | _ => s.tails.any fun rest => likeGo p rest
  | .one :: p, s => match s with
    | [] => false
    | _ :: s => likeGo p s
  | .lit c :: p, s => match s with
    | [] => false
    | d :: s => d == c && likeGo p s

def likeMatch (s pattern : String) (escape : Option Char) (insensitive : Bool) : Bool :=
  let fold (c : Char) := if insensitive then c.toLower else c
  likeGo (likeTokens fold escape pattern.toList) (s.toList.map fold)

/-- `LIKE` on evaluated operands; `escape` is the evaluated ESCAPE clause. -/
def evalLike (P : Prims) (v p : Value) (escape : Option Value) (negated insensitive : Bool) : Value :=
  match escape with
  | some .null => .null
  | _ =>
    let esc := escape >>= fun e => e.render P >>= fun s => s.toList.head?
    match v, p with
    | .text s, .text pat => boolValue (likeMatch s pat esc insensitive ^^ negated)
    | _, _ => .null

/-! ## Aggregates -/

def nullAwareCmp (a b : Value) : Ordering :=
  match a.isNull, b.isNull with
  | true, true => .eq
  | true, false => .lt
  | false, true => .gt
  | false, false => (a.sqlCmp b).getD .eq

/-- Keeps the first element of every key (`HashSet` + `retain`). -/
def dedupBy {α : Type} (key : α → String) (l : List α) : List α :=
  (l.foldl (fun (acc : List String × List α) a =>
    if acc.1.contains (key a) then acc else (key a :: acc.1, acc.2 ++ [a])) ([], [])).2

def jsonEscape (c : Char) : List Char :=
  if c = '"' then ['\\', '"'] else if c = '\\' then ['\\', '\\']
  else if c = '\n' then ['\\', 'n'] else if c = '\r' then ['\\', 'r'] else if c = '\t' then ['\\', 't']
  else if c.toNat < 0x20 then
    ['\\', 'u', '0', '0', if c.toNat < 0x10 then '0' else '1'] ++ Nat.toDigits 16 (c.toNat % 16)
  else [c]

def jsonQuote (s : String) : String := "\"" ++ String.ofList (s.toList.flatMap jsonEscape) ++ "\""

def valueToJson (P : Prims) : Value → String
  | .null => "null"
  | .int i => toString i
  | .real b => if (Float.ofBits b).isFinite then P.formatReal b else "null"
  | .text s => jsonQuote s
  | .blob b => jsonQuote (base64Encode b)
  | .vector v => formatVector P v

/-- The sum of i64 values; it faults when a partial sum leaves the range. -/
def sumI64 (vals : List Value) : Res Value := do
  let total ← vals.foldlM (fun (acc : Int64) v => match checkedI64 (acc.toInt + (li v).toInt) with
    | some i => .ok i
    | none => .error .panic) (0 : Int64)
  return .int total

def numOrZero (P : Prims) (v : Value) : Float :=
  match num P v with
  | .ok r => r
  | .error _ => 0

def sumReal (P : Prims) (vals : List Value) : Float := vals.foldl (fun acc v => acc + numOrZero P v) 0

def extremeBy (want : Ordering) : List Value → Value
  | [] => .null
  | v :: vs => vs.foldl (fun a b => if nullAwareCmp b a == want then b else a) v

/-- The fold of an aggregate over the non-null argument values. -/
def foldAggregate (P : Prims) (func : AggFunc) (sep : Option String) (vals : List Value) : Res Value :=
  match func with
  | .groupConcat | .jsonAgg =>
    if vals.isEmpty then .ok .null else .ok (.text (joinWith (sep.getD ",") (vals.map (textOf P))))
  | .count => .ok (.int (Int64.ofNat vals.length))
  | .min => .ok (extremeBy .lt vals)
  | .max => .ok (extremeBy .gt vals)
  | .sum =>
    if vals.isEmpty then .ok .null
    else if vals.all isInt then sumI64 vals else .ok (realValue (sumReal P vals))
  | .avg =>
    if vals.isEmpty then .ok .null else .ok (realValue (sumReal P vals / Float.ofNat vals.length))

/-- `compute_aggregate`; `evalRow` evaluates the argument on one group row. -/
def computeAggregate (P : Prims) (func : AggFunc) (distinct : Bool) (sep : Option String)
    (rows : List Row) (evalRow : Row → Res Value) : Res Value := do
  if func = .jsonAgg then
    if rows.isEmpty then return .null
    let vals ← rows.mapM evalRow
    return .text ("[" ++ joinWith "," (vals.map (valueToJson P)) ++ "]")
  let vals := (← rows.mapM evalRow).filter fun v => !v.isNull
  let vals := if distinct then dedupBy (valueKey P) vals else vals
  foldAggregate P func sep vals

/-! ## Evaluation -/

/-- The `<fn>` of an `auth.<fn>` accessor, lowercased. -/
def stripAuthPrefix (name : String) : Option String :=
  match (toAsciiLowercase name).toList with
  | 'a' :: 'u' :: 't' :: 'h' :: '.' :: rest => some (String.ofList rest)
  | _ => none

/-- `auth.claim(k)`: the claim as text, NULL when absent. -/
def sessionClaim (E : Env) (key : String) : Value :=
  match E.session.claims >>= fun raw => E.frontend.jsonClaim raw key with
  | some s => .text s
  | none => .null

/-- An `auth.*` accessor; `first` is its evaluated first argument. -/
def evalAuth (E : Env) (fname : String) (first : Option Value) : Res Value :=
  if fname = "uid" then .ok (sessionClaim E "sub")
  else if fname = "role" then .ok (.text E.session.roleName)
  else if fname = "claim" then match first with
    | none => .error (EngineError.sql "auth.claim(key) requires a key argument")
    | some .null => .ok .null
    | some key => .ok (sessionClaim E (textOf E.prims key))
  else .error (EngineError.sql ("unknown function: auth." ++ fname))

def evalExcluded (ctx : EvalCtx) (name : String) : Res Value :=
  match ctx.excluded with
  | none => .error (EngineError.sql "excluded.* is only valid in ON CONFLICT DO UPDATE")
  | some row => match ctx.schema with
    | none => .error (EngineError.sql "excluded.* referenced with no table")
    | some schema => match schema.columnIndex name with
      | none => .error (EngineError.sql ("no such column: excluded." ++ name))
      | some idx => indexRow row idx

def evalParam (ctx : EvalCtx) (idx : Nat) : Res Value :=
  match ctx.params[idx - 1]? with
  | some v => .ok v
  | none => .error (EngineError.misuse ("missing bound parameter ?" ++ toString idx))

def groupOf (ctx : EvalCtx) : Res (List Row) :=
  match ctx.group with
  | some rows => .ok rows
  | none => .error (EngineError.sql "aggregate function not allowed in this context")

def subqueryErr : Stop := EngineError.sql "subqueries are only supported in SELECT statements"

mutual

def eval (E : Env) : Expr → EvalCtx → Res Value
  | .null, _ => .ok .null
  | .int i, _ => .ok (.int i)
  | .real b, _ => .ok (.real b)
  | .str s, _ => .ok (.text s)
  | .vector v, _ => .ok (.vector v)
  | .lit v, _ => .ok v
  | .param idx, ctx => evalParam ctx idx
  | .column name, ctx => resolveValue ctx none name
  | .qualified table name, ctx => resolveValue ctx (some table) name
  | .unary op e, ctx => do evalUnary op (← eval E e ctx)
  | .isNull e negated, ctx => do return boolValue ((← eval E e ctx).isNull ^^ negated)
  | .like e pattern escape negated insensitive, ctx => do
    let v ← eval E e ctx
    let p ← eval E pattern ctx
    let esc ← evalOpt E escape ctx
    return evalLike E.prims v p esc negated insensitive
  | .inList e list negated, ctx => do
    let v ← eval E e ctx
    if v.isNull then return .null
    evalInList E list v negated false ctx
  | .between e lo hi negated, ctx => do
    let v ← eval E e ctx
    let l ← eval E lo ctx
    let h ← eval E hi ctx
    evalBetween E.prims v l h negated
  | .case operand whens els, ctx => do
    let op ← evalOpt E operand ctx
    match ← evalWhens E whens op ctx with
    | some v => return v
    | none => return (← evalOpt E els ctx).getD .null
  | .default, _ => .error (EngineError.sql "DEFAULT is only valid as an INSERT value")
  | .excluded name, ctx => evalExcluded ctx name
  | .binary op l r, ctx => do
    let lv ← eval E l ctx
    let rv ← eval E r ctx
    evalBinary E.prims op lv rv
  | .cast e target, ctx => do castValue E.prims (← eval E e ctx) target
  | .func name args, ctx =>
    match stripAuthPrefix name with
    | some rest => do
      -- only `auth.claim` looks at its argument
      let first ← if rest = "claim" then evalHead E args ctx else .ok none
      evalAuth E rest first
    | none => do E.callFunc name (← evalList E args ctx)
  | .aggregate func .star _ sep, ctx => do
    let rows ← groupOf ctx
    let _ ← evalOpt E sep ctx
    match func with
    | .count => return .int (Int64.ofNat rows.length)
    | _ => throw (EngineError.sql "only COUNT(*) takes a star argument")
  | .aggregate func (.expr e) distinct sep, ctx => do
    let rows ← groupOf ctx
    let sepVal ← evalOpt E sep ctx
    computeAggregate E.prims func distinct (sepVal >>= fun v => v.render E.prims) rows fun r =>
      eval E e { ctx with row := some r, group := none, excluded := none }
  | .scalarSubquery _, _ => .error subqueryErr
  | .exists _ _, _ => .error subqueryErr
  | .inSubquery _ _ _, _ => .error subqueryErr

def evalList (E : Env) : List Expr → EvalCtx → Res (List Value)
  | [], _ => .ok []
  | e :: es, ctx => do
    let v ← eval E e ctx
    let vs ← evalList E es ctx
    return v :: vs

def evalHead (E : Env) : List Expr → EvalCtx → Res (Option Value)
  | [], _ => .ok none
  | e :: _, ctx => do return some (← eval E e ctx)

def evalOpt (E : Env) : Option Expr → EvalCtx → Res (Option Value)
  | none, _ => .ok none
  | some e, ctx => do return some (← eval E e ctx)

/-- The membership loop of `IN (list)`, under three-valued logic. -/
def evalInList (E : Env) : List Expr → Value → Bool → Bool → EvalCtx → Res Value
  | [], _, negated, sawNull, _ => .ok (if sawNull then .null else boolValue negated)
  | e :: es, v, negated, sawNull, ctx => do
    let w ← eval E e ctx
    match v.sqlEq w with
    | some true => return boolValue !negated
    | some false => evalInList E es v negated sawNull ctx
    | none => evalInList E es v negated true ctx

/-- The first matching branch of a `CASE`, if any. -/
def evalWhens (E : Env) : List (Expr × Expr) → Option Value → EvalCtx → Res (Option Value)
  | [], _, _ => .ok none
  | (cond, result) :: whens, operand, ctx => do
    let c ← eval E cond ctx
    let hit := match operand with
      | some op => c.sqlEq op == some true
      | none => c.asBool.getD false
    if hit then return some (← eval E result ctx)
    evalWhens E whens operand ctx

end

/-- A WHERE-style filter: unknown counts as false. -/
def predicate (E : Env) (filter : Option Expr) (ctx : EvalCtx) : Res Bool :=
  match filter with
  | none => .ok true
  | some e => do return (← eval E e ctx).asBool.getD false

/-- `eval_const_sql`: a stored DEFAULT text as a constant. -/
def evalConstSql (E : Env) (sql : String) : Res Value := do
  let e ← E.frontend.parseExpr sql
  eval E e (EvalCtx.root [])

/-- An environment for worked cases: stored texts are bare column names, the
session is anonymous, and no view, scalar function or float text is at hand. -/
def Env.bare : Env where
  prims := ⟨fun _ => "", fun _ => "", fun _ => none, fun _ => none, fun a _ => a⟩
  frontend := ⟨fun sql => .ok (.column sql), fun _ => none, fun _ _ => none⟩
  callFunc := fun name _ => .error (EngineError.sql ("no such function: " ++ name))
  session := ⟨none, none, false⟩
  fuel := 8

end Twill
