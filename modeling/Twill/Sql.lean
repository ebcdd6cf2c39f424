/-
The statement AST (`sql.rs`), the table catalog (`catalog.rs`) and the
session principal (`session.rs`).

Parsing is not embedded here: `Frontend` stands for the two entry points the
executor and recovery call on stored text (`parse_expr` on DEFAULT, CHECK and
policy texts, `parse` on a view's statement text).
-/
import Twill.Value

namespace Twill

inductive BinOp where
  | eq | ne | lt | le | gt | ge | and | or | add | sub | mul | div | mod | concat
  | vecL2 | vecCosine | vecIp
  deriving DecidableEq, Repr

/-- The metric a distance operator queries under, if it is one. -/
def BinOp.vecMetric : BinOp → Option Metric
  | .vecL2 => some .l2
  | .vecCosine => some .cosine
  | .vecIp => some .innerProduct
  | _ => none

inductive UnOp where
  | not | neg
  deriving DecidableEq, Repr

inductive CastTarget where
  | int | real | text | bool | passthrough
  deriving DecidableEq, Repr

inductive AggFunc where
  | count | sum | min | max | avg | jsonAgg | groupConcat
  deriving DecidableEq, Repr

inductive JoinKind where
  | inner | left | right | full | cross
  deriving DecidableEq, Repr

inductive SetOp where
  | union | intersect | except
  deriving DecidableEq, Repr

mutual

inductive Expr where
  | null
  | int (i : Int64)
  | real (bits : UInt64)
  | str (s : String)
  | vector (v : List UInt32)
  /-- A pre-computed value: a folded subquery. -/
  | lit (v : Value)
  /-- A bound parameter, 1-based. -/
  | param (idx : Nat)
  | column (name : String)
  | binary (op : BinOp) (l r : Expr)
  | unary (op : UnOp) (e : Expr)
  | isNull (e : Expr) (negated : Bool)
  | like (e pattern : Expr) (escape : Option Expr) (negated insensitive : Bool)
  | inList (e : Expr) (list : List Expr) (negated : Bool)
  | between (e lo hi : Expr) (negated : Bool)
  | case (operand : Option Expr) (whens : List (Expr × Expr)) (els : Option Expr)
  /-- `excluded.<col>` inside `ON CONFLICT DO UPDATE`. -/
  | excluded (name : String)
  /-- The `DEFAULT` keyword as an `INSERT … VALUES` cell. -/
  | default
  | cast (e : Expr) (target : CastTarget)
  | func (name : String) (args : List Expr)
  | aggregate (func : AggFunc) (arg : AggArg) (distinct : Bool) (sep : Option Expr)
  | qualified (table name : String)
  | scalarSubquery (query : SelectStmt)
  | exists (query : SelectStmt) (negated : Bool)
  | inSubquery (e : Expr) (query : SelectStmt) (negated : Bool)

inductive AggArg where
  | star
  | expr (e : Expr)

inductive SelItem where
  | star (qualifier : Option String)
  | expr (expr : Expr) (alias_ : Option String)

structure OrderKey where
  expr : Expr
  asc : Bool
  nullsFirst : Bool

structure CteDef where
  name : String
  query : SelectStmt

structure SetOpPart where
  op : SetOp
  all : Bool
  query : SelectStmt

inductive FromClause where
  | table (name : String) (alias_ : Option String)
  | derived (query : SelectStmt) (alias_ : String)
  | join (left right : FromClause) (kind : JoinKind) (on_ : Option Expr) (using_ : List String)

structure SelectStmt where
  with_ : List CteDef
  distinct : Bool
  items : List SelItem
  from_ : Option FromClause
  filter : Option Expr
  groupBy : List Expr
  having : Option Expr
  setOps : List SetOpPart
  orderBy : List OrderKey
  limit : Option Expr
  offset : Option Expr

end

/-- Where an `INSERT` gets its rows. -/
inductive InsertSource where
  | values (rows : List (List Expr))
  | select (query : SelectStmt)

/-- What happens when a row clashes with an existing primary key. -/
inductive OnConflict where
  | error
  | nothing
  | update (sets : List (String × Expr)) (filter : Option Expr)
  | replace

/-! ## Catalog -/

structure Column where
  name : String
  ty : ColumnType
  primaryKey : Bool
  notNull : Bool
  unique : Bool
  autoincrement : Bool
  defaultSql : Option String
  deriving DecidableEq, Repr

structure ForeignKey where
  name : String
  columns : List String
  foreignTable : String
  foreignColumns : List String
  deriving DecidableEq, Repr

inductive PolicyCommand where
  | all | select | insert | update | delete
  deriving DecidableEq, Repr

structure Policy where
  name : String
  command : PolicyCommand
  /-- Roles it applies to; empty is every role. -/
  roles : List String
  using_ : Option String
  check : Option String
  deriving DecidableEq, Repr

structure TableSchema where
  name : String
  columns : List Column
  foreignKeys : List ForeignKey
  checks : List String
  uniques : List (List String)
  rlsEnabled : Bool
  policies : List Policy
  deriving DecidableEq, Repr

namespace TableSchema

def columnIndex (s : TableSchema) (name : String) : Option Nat :=
  s.columns.findIdx? fun c => eqIgnoreAsciiCase c.name name

/-- The column at a position (the source indexes the vector directly). -/
def column (s : TableSchema) (i : Nat) : Column :=
  s.columns.getD i ⟨"", .text, false, false, false, false, none⟩

/-- All primary-key columns, in declaration order. -/
def primaryKeyIndices (s : TableSchema) : List Nat :=
  (s.columns.zipIdx.filter fun p => p.1.primaryKey).map (·.2)

/-- Every key set to enforce: the primary key first, then single-column
`UNIQUE`, then the table-level sets whose columns all resolve. -/
def uniqueSets (s : TableSchema) : List (List Nat) :=
  let pk := s.primaryKeyIndices
  (if pk.isEmpty then [] else [pk]) ++
    ((s.columns.zipIdx.filter fun p => p.1.unique).map fun p => [p.2]) ++
    (s.uniques.filterMap fun u => u.mapM s.columnIndex)

end TableSchema

/-! ## The session principal -/

def anonRole : String := "anon"

structure SessionContext where
  role : Option String
  claims : Option String
  bypass : Bool
  deriving DecidableEq, Repr

def SessionContext.roleName (s : SessionContext) : String := s.role.getD anonRole

/-! ## What stored text stands for -/

/-- The parser's entry points on stored text: `parse_expr` for DEFAULT, CHECK
and policy texts, the query of a stored `CREATE VIEW` text, and the claim a
JSON claims text holds under a key (`Json::parse … get_key … as_text`). -/
structure Frontend where
  parseExpr : String → Res Expr
  parseView : String → Option SelectStmt
  jsonClaim : String → String → Option String

/-- What one statement runs under: the leaf functions, the parser, the scalar
functions (`call_func`, whose clock and random draws are this statement's), the
principal installed for it, and how deep query expansion may go before the
model gives up. -/
structure Env where
  prims : Prims
  frontend : Frontend
  callFunc : String → List Value → Res Value
  session : SessionContext
  fuel : Nat

end Twill
