/-
Statements (`sql.rs`): the dispatch on the first keyword, the session statements
(`SET`, `RESET`, `SHOW`, `EXPLAIN`) and transaction control. What parses DDL, DML
and queries is a parameter, `Grammar`.

The cursor is the list of tokens still ahead; it ends with `eof`, which nothing
consumes.
-/
import Twill.Lex
import Twill.Dml
import Twill.Ddl

namespace Twill

/-- A session-context mutation. -/
inductive SessionSet where
  | role (role : Option String)
  | claims (claims : Option String)
  | bypass (on : Bool)
  deriving DecidableEq, Repr

inductive Stmt where
  | ddl (st : DdlStmt)
  | dml (st : DmlStmt)
  | select (sel : SelectStmt)
  | begin
  | commit
  | rollback
  | savepoint (name : String)
  | releaseSavepoint (name : String)
  | rollbackTo (name : String)
  /-- An accepted-and-ignored session statement. -/
  | noop
  | setVectorEf (value : Option Nat)
  | show (name : String)
  | explain (inner : Stmt)
  | setSession (set : SessionSet)

abbrev Toks := List Tok

/-- A parsed statement, the highest parameter it uses and what is left. -/
abbrev Parsed (α : Type) := Res (α × Nat × Toks)

/-- The parsers of the statements that are not embedded: from the source text and
the tokens from the statement's first keyword on. -/
structure Grammar where
  createIndex : String → Toks → Parsed DdlStmt
  createPolicy : String → Toks → Parsed DdlStmt
  createView : String → Toks → Parsed DdlStmt
  createTable : String → Toks → Parsed DdlStmt
  dropIndex : String → Toks → Parsed DdlStmt
  dropView : String → Toks → Parsed DdlStmt
  dropPolicy : String → Toks → Parsed DdlStmt
  dropTable : String → Toks → Parsed DdlStmt
  alterTable : String → Toks → Parsed DdlStmt
  createIsView : Toks → Bool
  insert : String → Toks → Parsed DmlStmt
  update : String → Toks → Parsed DmlStmt
  delete : String → Toks → Parsed DmlStmt
  select : String → Toks → Parsed SelectStmt

/-- A parser that takes only the statements it needs no grammar for. -/
def Grammar.bare : Grammar :=
  let refuse {α : Type} : String → Toks → Parsed α := fun _ _ => .error (EngineError.sql "not at hand")
  ⟨refuse, refuse, refuse, refuse, refuse, refuse, refuse, refuse, refuse, fun _ => false, refuse, refuse, refuse, refuse⟩

namespace Toks

def peek : Toks → Tok
  | [] => .eof
  | t :: _ => t

def isKw (kw : String) (ts : Toks) : Bool := match ts with
  | .word w :: _ => eqIgnoreAsciiCase w kw
  | _ => false

def nextIsKw (kw : String) (ts : Toks) : Bool := isKw kw ts.tail

/-- What is left when the keyword, if it is next, is eaten. -/
def eatKw (kw : String) (ts : Toks) : Option Toks := if isKw kw ts then some ts.tail else none

/-- Eats the first of some keywords that is next. -/
def eatAny (kws : List String) (ts : Toks) : Option Toks := kws.findSome? fun kw => eatKw kw ts

/-- An optional keyword. -/
def skipAny (kws : List String) (ts : Toks) : Toks := (eatAny kws ts).getD ts

def skip (t : Tok) (ts : Toks) : Toks := match ts with
  | u :: rest => if u = t then rest else ts
  | [] => []

/-- Up to the statement terminator. -/
def skipToEnd (ts : Toks) : Toks := ts.dropWhile fun t => t != .semi && t != .eof

/-- After a balanced parenthesised group; `depth` groups are open. -/
def skipParens (depth : Nat) : Toks → Toks
  | [] => []
  | .eof :: ts => .eof :: ts
  | .lParen :: ts => skipParens (depth + 1) ts
  | .rParen :: ts => if depth ≤ 1 then ts else skipParens (depth - 1) ts
  | _ :: ts => skipParens depth ts

end Toks

open Toks

/-- `{:?}` of a token. -/
def Tok.debug : Tok → String
  | .word w => "Word(" ++ debugText w ++ ")"
  | .int n => "Int(" ++ toString n.toInt ++ ")"
  | .real text => "Real(" ++ text ++ ")"
  | .str s => "Str(" ++ debugText s ++ ")"
  | .param => "Param"
  | .numParam n => "NumParam(" ++ toString n ++ ")"
  | .namedParam name => "NamedParam(" ++ debugText name ++ ")"
  | .lParen => "LParen" | .rParen => "RParen" | .lBracket => "LBracket" | .rBracket => "RBracket"
  | .comma => "Comma" | .semi => "Semi" | .dColon => "DColon" | .dot => "Dot" | .star => "Star"
  | .eq => "Eq" | .ne => "Ne" | .lt => "Lt" | .le => "Le" | .gt => "Gt" | .ge => "Ge"
  | .plus => "Plus" | .minus => "Minus" | .slash => "Slash" | .percent => "Percent"
  | .concat => "Concat" | .arrow => "Arrow" | .arrowText => "ArrowText"
  | .vecL2 => "VecL2" | .vecCosine => "VecCosine" | .vecIp => "VecIp" | .eof => "Eof"

def ident (ts : Toks) : Res (String × Toks) := match ts with
  | .word w :: ts => .ok (w, ts)
  | ts => .error (EngineError.sql ("expected identifier, found " ++ (peek ts).debug))

/-! ## Session statements -/

def dottedTail : Toks → List String × Toks
  | .dot :: .word w :: ts => let (parts, ts) := dottedTail ts; (w :: parts, ts)
  | .dot :: ts => ([], ts)
  | ts => ([], ts)

/-- A dotted name from consecutive word and dot tokens. -/
def dottedName (ts : Toks) : String × Toks :=
  let (parts, ts) : List String × Toks := match ts with
    | .word w :: ts => let (parts, ts) := dottedTail ts; (w :: parts, ts)
    | ts => dottedTail ts
  (joinWith "." parts, ts)

inductive SetVal where
  | str (s : String)
  | word (w : String)
  | default
  | none

def SetVal.truthy : SetVal → Bool
  | .str s | .word s => ["on", "true", "1", "yes"].contains (toAsciiLowercase s)
  | _ => false

/-- The right-hand side `[=|TO] value` of a `SET`; nothing after it is read. -/
def readSetValue (ts : Toks) : SetVal :=
  let ts := if peek ts = .eq then ts.tail else skipAny ["to"] ts
  match peek ts with
  | .str s => .str s
  | .int n => .word (toString n.toInt)
  | .word w => if eqIgnoreAsciiCase w "default" then .default else .word w
  | _ => .none

/-- `str::parse::<usize>`. -/
def parseUsize (s : String) : Option Nat :=
  let digits := match s.toList with
    | '+' :: cs => cs
    | cs => cs
  if digits.isEmpty || !digits.all Char.isDigit || 2 ^ 64 ≤ decimal digits then none else some (decimal digits)

def vectorEfSearchGuc : String := "twill.vector_ef_search"

/-- `SET [SESSION|LOCAL] …`, after the keyword. -/
def setStmt (ts : Toks) : Res (Stmt × Toks) :=
  let ts := skipAny ["session", "local"] ts
  match eatKw "role" ts with
  | some ts => match eatAny ["none", "default"] ts with
    | some ts => .ok (.setSession (.role none), skipToEnd ts)
    | none => do
      let (role, ts) ← ident ts
      return (.setSession (.role (some role)), skipToEnd ts)
  | none =>
    let (name, ts) := dottedName ts
    let name := toAsciiLowercase name
    let stmt : Stmt :=
      if name = "twill.jwt.claims" ∨ name = "request.jwt.claims" then
        .setSession (.claims (match readSetValue ts with
          | .str s => some s
          | .word w => some w
          | _ => none))
      else if name = "twill.rls.bypass" then .setSession (.bypass (readSetValue ts).truthy)
      else if name = vectorEfSearchGuc then
        .setVectorEf (match readSetValue ts with
          | .word w => (parseUsize w).map fun n => max n 1
          | _ => none)
      else .noop
    .ok (stmt, skipToEnd ts)

/-- `RESET <name>`, after the keyword. -/
def resetStmt (ts : Toks) : Stmt × Toks :=
  match eatKw "role" ts with
  | some ts => (.setSession (.role none), skipToEnd ts)
  | none =>
    let (name, ts) := dottedName ts
    let name := toAsciiLowercase name
    let stmt : Stmt :=
      if name = "twill.jwt.claims" ∨ name = "request.jwt.claims" then .setSession (.claims none)
      else if name = "twill.rls.bypass" then .setSession (.bypass false)
      else if name = vectorEfSearchGuc then .setVectorEf none
      else .noop
    (stmt, skipToEnd ts)

/-- The dotted names of a `SHOW`; a word is always consumed, so the tokens bound the turns. -/
def showParts : Nat → Toks → List String × Toks
  | fuel + 1, .word w :: ts =>
    let (name, ts) := dottedName (.word w :: ts)
    let (parts, ts) := showParts fuel ts
    (name :: parts, ts)
  | _, ts => ([], ts)

/-! ## Transaction control -/

/-- The optional transaction modes of `BEGIN`; each turn but the last consumes a token. -/
def eatTransactionModes : Nat → Toks → Toks
  | 0, ts => ts
  | fuel + 1, ts =>
    let ts := skip .comma ts
    match eatKw "isolation" ts with
    | some ts =>
      let ts := skipAny ["level"] ts
      eatTransactionModes fuel (match eatKw "serializable" ts with
        | some ts => ts
        | none => match eatKw "repeatable" ts with
          | some ts => skipAny ["read"] ts
          | none => match eatKw "read" ts with
            | some ts => skipAny ["committed", "uncommitted"] ts
            | none => ts)
    | none => match eatKw "read" ts with
      | some ts => eatTransactionModes fuel (skipAny ["only", "write"] ts)
      | none => match eatKw "not" ts with
        | some ts => eatTransactionModes fuel (skipAny ["deferrable"] ts)
        | none => match eatKw "deferrable" ts with
          | some ts => eatTransactionModes fuel ts
          | none => ts

def transactionStmt (ts : Toks) : Option (Res (Stmt × Toks)) :=
  if isKw "begin" ts then
    let ts := skipAny ["transaction", "work"] ts.tail
    some (.ok (.begin, eatTransactionModes ts.length ts))
  else if isKw "start" ts then
    let ts := skipAny ["transaction"] ts.tail
    some (.ok (.begin, eatTransactionModes ts.length ts))
  else if isKw "commit" ts || isKw "end" ts then
    some (.ok (.commit, skipAny ["transaction", "work"] ts.tail))
  else if isKw "savepoint" ts then some ((ident ts.tail).map fun r => (.savepoint r.1, r.2))
  else if isKw "release" ts then
    some ((ident (skipAny ["savepoint"] ts.tail)).map fun r => (.releaseSavepoint r.1, r.2))
  else if isKw "rollback" ts || isKw "abort" ts then
    let ts := skipAny ["transaction", "work"] ts.tail
    match eatKw "to" ts with
    | some ts => some ((ident (skipAny ["savepoint"] ts)).map fun r => (.rollbackTo r.1, r.2))
    | none => some (.ok (.rollback, ts))
  else none

/-! ## The dispatch -/

/-- A statement without parameters. -/
def plain (r : Res (Stmt × Toks)) : Parsed Stmt := r.map fun r => (r.1, 0, r.2)

def Parsed.lift {α : Type} (f : α → Stmt) (r : Parsed α) : Parsed Stmt := r.map fun r => (f r.1, r.2)

/-- `statement`; an `EXPLAIN` consumes its keyword, so the tokens bound the nesting. -/
def statement (G : Grammar) (src : String) : Nat → Toks → Parsed Stmt
  | 0, _ => .error .fuel
  | fuel + 1, ts =>
    if isKw "create" ts then
      .lift .ddl (if nextIsKw "index" ts then G.createIndex src ts
        else if nextIsKw "policy" ts then G.createPolicy src ts
        else if G.createIsView ts then G.createView src ts
        else G.createTable src ts)
    else if isKw "drop" ts then
      .lift .ddl (if nextIsKw "index" ts then G.dropIndex src ts
        else if nextIsKw "view" ts then G.dropView src ts
        else if nextIsKw "policy" ts then G.dropPolicy src ts
        else G.dropTable src ts)
    else if isKw "alter" ts then .lift .ddl (G.alterTable src ts)
    else if isKw "insert" ts then .lift .dml (G.insert src ts)
    else if isKw "select" ts || isKw "with" ts then .lift .select (G.select src ts)
    else if isKw "update" ts then .lift .dml (G.update src ts)
    else if isKw "delete" ts then .lift .dml (G.delete src ts)
    else if isKw "explain" ts then
      let ts := skipAny ["verbose"] (skipAny ["analyze"] ts.tail)
      .lift .explain (statement G src fuel (if peek ts = .lParen then skipParens 0 ts else ts))
    else if isKw "show" ts then
      let (parts, ts) := showParts ts.length ts.tail
      .ok (.show (joinWith " " parts), 0, ts)
    else if isKw "set" ts then plain (setStmt ts.tail)
    else if isKw "reset" ts then plain (.ok (resetStmt ts.tail))
    else if isKw "pragma" ts || isKw "vacuum" ts || isKw "analyze" ts || isKw "discard" ts then
      plain (.ok (.noop, skipToEnd ts))
    else match transactionStmt ts with
      | some r => plain r
      | none => .error (EngineError.sql ("unsupported statement starting at " ++ (peek ts).debug))

/-- `parse`: one statement and its parameter count. -/
def parseSql (G : Grammar) (sql : List Char) : Res (Stmt × Nat) := do
  let toks ← lex sql
  let (stmt, nparams, rest) ← statement G (String.ofList sql) toks.length toks
  if peek (skip .semi rest) = .eof then return (stmt, nparams)
  else throw (EngineError.sql "trailing tokens after statement")

end Twill
