/-
A session of the wire protocol (`session.rs`): the command loop, the simple and the
extended query protocol, portals and the PostgREST rewrites.

A handler of the session is a program of calls: what it looks up and stores, what it
sends, what it has the engine run. The engine is a parameter (`Engine`): any state,
any outcome of a statement. So are the leaf codecs of the wire and of JSON (`Codec`).
-/
import Twill.Lib.Program
import Twill.Statement
import Twill.Server.Datapath

namespace Twill.Server

/-! ## The engine's side -/

/-- `ResultSet`; the types are parallel to the columns. -/
structure ResultSet where
  columns : List String
  types : List ColumnType
  rows : List Row

/-- The answer of a reflection. -/
structure Table where
  columns : List String
  oids : List Int32
  rows : List Row
  tag : String

/-- An engine connection: what a session calls of it. -/
structure Engine (σ : Type) where
  /-- `sql::parse`: the statement and its number of parameters. -/
  parse : List Char → Except EngineError (Stmt × Nat)
  /-- `Connection::run`. -/
  run : σ → Stmt → List Value → Except EngineError ResultSet × σ
  inTransaction : σ → Bool
  lastChanges : σ → Int64
  /-- The schema cache, the statistics and the catalog, as the server renders them. -/
  reflect : σ → ReflectKind → Table
  stats : σ → Table
  catalog : σ → CatalogKind → Table

/-- What the process and the standard library give a session. -/
structure Codec where
  user : String
  database : String
  pid : Int64
  isAlphanumeric : Char → Bool
  /-- `String::from_utf8_lossy`. -/
  utf8Lossy : List UInt8 → List Char
  /-- `str::parse::<f64>`, to the bits. -/
  parseF64 : String → Option UInt64
  /-- `json_rows`: the rows of a JSON body, in column order. -/
  jsonRows : List Char → List (List Char) → Except String (List Row)
  /-- `value_json` and `json_string`. -/
  jsonValue : Value → List Char
  jsonString : List Char → List Char

/-! ## Messages -/

inductive Frontend where
  | query (sql : List Char)
  | parse (name : String) (sql : List Char) (paramOids : List Int32)
  | bind (portal stmt : String) (paramFormats : List Int16) (params : List (Option (List UInt8)))
      (resultFormats : List Int16)
  | describe (kind : Char) (name : String)
  | execute (portal : String) (maxRows : Int32)
  | close (kind : Char) (name : String)
  | sync
  | flush
  | terminate
  | unsupported (tag : Char)

/-- A field of a row description. -/
structure Field where
  name : String
  oid : Int32
  len : Int16
  format : Int16
  deriving DecidableEq, Repr

/-- A message to the client, apart from `ErrorResponse` and `ReadyForQuery`. A cell is a value with the format it is
encoded in. -/
inductive Reply where
  | emptyQueryResponse
  | rowDescription (fields : List Field)
  | dataRow (cells : List (Value × Int16))
  | commandComplete (tag : String)
  | parseComplete
  | bindComplete
  | closeComplete
  | parameterDescription (oids : List Int32)
  | noData
  deriving DecidableEq, Repr

/-- The transaction-status byte: `I`, `E` or `T`. -/
inductive Status where
  | idle
  | failed
  | active
  deriving DecidableEq, Repr

/-! ## Types on the wire -/

def OID_BOOL : Int32 := 16
def OID_BYTEA : Int32 := 17
def OID_INT8 : Int32 := 20
def OID_INT4 : Int32 := 23
def OID_TEXT : Int32 := 25
def OID_FLOAT8 : Int32 := 701

def columnTypeOid : ColumnType → Int32
  | .integer => OID_INT8
  | .real => OID_FLOAT8
  | .text => OID_TEXT
  | .blob => OID_BYTEA
  | .vector _ => OID_TEXT

/-- Fixed wire length of a type, or `-1`. -/
def typeLen (oid : Int32) : Int16 :=
  if oid = OID_BOOL then 1
  else if oid = OID_INT4 then 4
  else if oid = OID_INT8 ∨ oid = OID_FLOAT8 then 8
  else -1

/-- The column OID of the values a column holds. -/
def inferColumnOid (rows : List Row) (col : Nat) : Int32 :=
  let cells := (rows.filterMap fun row => row[col]?).filter fun v => v != .null
  let all (p : Value → Bool) : Bool := cells.all p
  if cells.isEmpty then OID_TEXT
  else if all fun v => v matches .int _ then OID_INT8
  else if all fun v => v matches .real _ then OID_FLOAT8
  else if all fun v => v matches .blob _ then OID_BYTEA
  else OID_TEXT

def resolveOids (explicit : List Int32) (columns : List String) (rows : List Row) : List Int32 :=
  if explicit.isEmpty then (List.range columns.length).map (inferColumnOid rows) else explicit

/-- `engine_oids`. -/
def engineOids (rs : ResultSet) : List Int32 :=
  (List.range rs.columns.length).map fun c => (rs.types[c]?.map columnTypeOid).getD OID_TEXT

/-- Format code at an index: none is text, one is for all. -/
def fmtAt (formats : List Int16) (i : Nat) : Int16 := match formats with
  | [] => 0
  | [f] => f
  | _ => formats[i]?.getD 0

def fields (columns : List String) (oids : List Int32) (formats : List Int16) : List Field :=
  columns.zipIdx.map fun (name, c) =>
    let oid := oids[c]?.getD OID_TEXT
    ⟨name, oid, typeLen oid, fmtAt formats c⟩

def cells (formats : List Int16) (row : Row) : List (Value × Int16) :=
  row.zipIdx.map fun (v, c) => (v, fmtAt formats c)

/-- A big-endian two's complement number. -/
def fromBeBytes (bytes : List UInt8) : Nat := bytes.foldl (fun n b => n * 256 + b.toNat) 0

def decodeParam (K : Codec) (raw : Option (List UInt8)) (format : Int16) : Value := match raw with
  | none => .null
  | some bytes =>
    let text := String.ofList (K.utf8Lossy bytes)
    if format = 1 then
      if bytes.length = 4 then .int (Int32.ofNat (fromBeBytes bytes)).toInt64
      else if bytes.length = 8 then .int (Int64.ofNat (fromBeBytes bytes))
      else .text text
    else match parseI64 text with
      | some i => .int i
      | none => match K.parseF64 text with
        | some r => .real r
        | none => .text text

/-! ## Statement texts -/

/-- `describe_error`. -/
def describeError (msg : String) : String × String :=
  let text := lower msg.toList
  let code :=
    if has text "conflict" || has text "fenced" || has text "durability" then "40001"
    else if has text "transaction" then "25000"
    else "42601"
  (code, msg)

/-- The leading keyword, in upper case. -/
def classify (sql : List Char) : List Char :=
  ((Text.trimStart isWhitespace sql).takeWhile Char.isAlpha).map Char.toUpper

def commandTag (cls : List Char) (rows : Nat) (changes : Int64) : String := match String.ofList cls with
  | "SELECT" | "VALUES" | "SHOW" => "SELECT " ++ toString rows
  | "INSERT" => "INSERT 0 " ++ toString changes
  | "UPDATE" => "UPDATE " ++ toString changes
  | "DELETE" => "DELETE " ++ toString changes
  | "CREATE" => "CREATE TABLE"
  | "DROP" => "DROP TABLE"
  | "BEGIN" | "START" => "BEGIN"
  | "COMMIT" | "END" => "COMMIT"
  | "ROLLBACK" | "ABORT" => "ROLLBACK"
  | "" => "SELECT 0"
  | other => other

def isRowReturning (sql : List Char) : Bool :=
  ["SELECT", "VALUES", "WITH", "SHOW"].any fun kw => classify sql == kw.toList

/-- The bytes of a character, each as one. -/
def bytesAsChars (c : Char) : List Char := (String.utf8EncodeChar c).map fun b => Char.ofNat b.toNat

/-- `rewrite_placeholders`: `$n` outside quotes to `?`, and the numbers in text order. Other
bytes become characters; numbers wrap. -/
def rewritePlaceholders (sql : List Char) : List Char × List Nat := go sql.length false false sql
where
  go : Nat → Bool → Bool → List Char → List Char × List Nat
    | 0, _, _, _ | _, _, _, [] => ([], [])
    | fuel + 1, single, double, c :: s =>
      if c = '\'' ∧ !double then let r := go fuel (!single) double s; (c :: r.1, r.2)
      else if c = '"' ∧ !single then let r := go fuel single (!double) s; (c :: r.1, r.2)
      else if c = '$' ∧ !single ∧ !double ∧ (s.head?.any Char.isDigit) then
        let r := go fuel single double (s.dropWhile Char.isDigit)
        ('?' :: r.1, decimal (s.takeWhile Char.isDigit) % 2 ^ 64 :: r.2)
      else let r := go fuel single double s; (bytesAsChars c ++ r.1, r.2)

/-- `max_param`: the highest `$n`, inside quotes too. -/
def maxParam (sql : List Char) : Nat := go sql.length sql
where
  go : Nat → List Char → Nat
    | 0, _ | _, [] => 0
    | fuel + 1, c :: s =>
      if c = '$' ∧ (s.head?.any Char.isDigit) then
        max (decimal (s.takeWhile Char.isDigit) % 2 ^ 64) (go fuel (s.dropWhile Char.isDigit))
      else go fuel s

/-- `split_statements`: on `;` outside quotes, without blank fragments. -/
def splitStatements (sql : List Char) : List (List Char) :=
  ((go false false sql).map (Text.trim isWhitespace)).filter fun s => !s.isEmpty
where
  go (single double : Bool) : List Char → List (List Char)
    | [] => [[]]
    | c :: s =>
      let (single', double') :=
        if c = '\'' ∧ !double then (!single, double) else if c = '"' ∧ !single then (single, !double) else (single, double)
      match go single' double' s with
      | [] => [[c]]
      | cur :: rest => if c = ';' ∧ !single ∧ !double then [] :: cur :: rest else (c :: cur) :: rest

/-! ## Prepared statements and portals -/

inductive Postprocess where
  | none
  | pgrstRead
  | pgrstInsert (plan : InsertPlan)
  | pgrstUpdate (plan : UpdatePlan)
  | pgrstDelete (plan : DeletePlan)
  | pgrstEmbed (plan : EmbedRead)
  deriving DecidableEq

structure Prepared where
  /-- With `$n` rewritten to the engine's `?`. -/
  sql : List Char
  /-- The parameter number of each `?`. -/
  order : List Nat
  nparams : Nat
  paramOids : List Int32
  postprocess : Postprocess
  deriving DecidableEq

/-- A materialized result. -/
structure Mat where
  columns : List String
  oids : List Int32
  rows : List Row
  tag : String
  hasRows : Bool
  deriving DecidableEq

structure Portal where
  stmt : String
  params : List Value
  resultFormats : List Int16
  materialized : Option Mat
  deriving DecidableEq

abbrev Stmts := AList fun _ : String => Prepared

abbrev Portals := AList fun _ : String => Portal

def paramOidsFor (p : Prepared) : List Int32 :=
  if p.paramOids.length = p.nparams then p.paramOids else List.replicate p.nparams OID_TEXT

/-! ## The calls of a handler -/

/-- An error: its code and its message. -/
abbrev Fault := String × String

/-- What a running statement asks of the engine. -/
inductive EngineOp where
  | run (stmt : Stmt) (args : List Value)
  | lastChanges
  | reflect (kind : ReflectKind)
  | stats
  | catalog (kind : CatalogKind)

def EngineOp.Answer : EngineOp → Type
  | .run _ _ => Except EngineError ResultSet
  | .lastChanges => Int64
  | .reflect _ | .stats | .catalog _ => Table

/-- The calls of a handler. -/
inductive Op where
  | engine (o : EngineOp)
  | skipping
  | stmts
  | portals
  | setStmts (s : Stmts)
  | setPortals (p : Portals)
  | send (m : Reply)
  /-- The error response of the protocol in use. -/
  | error (fault : Fault)
  /-- Outside a transaction, forget the failed one. -/
  | settle
  /-- The end of the session, also by a panic. -/
  | stop

def Op.Answer : Op → Type
  | .engine o => o.Answer
  | .skipping => Bool
  | .stmts => Stmts
  | .portals => Portals
  | .setStmts _ | .setPortals _ | .send _ | .error _ | .settle | .stop => Unit

/-- What runs statements, and reads and writes nothing else. -/
abbrev Asking := Program EngineOp EngineOp.Answer

/-- Running statements, up to an error. -/
abbrev Try := ExceptT Fault Asking

abbrev Session := Program Op Op.Answer

/-- What happens in a session, in order: a statement in the engine, with whether a
transaction was open before and after and whether one was marked failed; a reply; an
`ErrorResponse`; a `ReadyForQuery`. -/
inductive Event where
  | ran (stmt : Stmt) (args : List Value) (before after flagged : Bool)
  | sent (m : Reply)
  | failed (fault : Fault)
  | ready (status : Status)

/-- A session with its engine, and what happened so far. -/
structure World (σ : Type) where
  engine : σ
  stmts : Stmts
  portals : Portals
  skipUntilSync : Bool
  failedTxn : Bool
  ended : Bool
  log : List Event

variable {σ : Type}

/-- The engine's answer. -/
def World.ask (E : Engine σ) : (o : EngineOp) → World σ → o.Answer × World σ
  | .run stmt args, w =>
    let (result, engine) := E.run w.engine stmt args
    (result, { w with
      engine := engine
      log := w.log ++ [.ran stmt args (E.inTransaction w.engine) (E.inTransaction engine) w.failedTxn] })
  | .lastChanges, w => (E.lastChanges w.engine, w)
  | .reflect kind, w => (E.reflect w.engine kind, w)
  | .stats, w => (E.stats w.engine, w)
  | .catalog kind, w => (E.catalog w.engine kind, w)

/-- The session's answer to a call. An error marks an open transaction as failed and, in the
extended protocol, starts the skipping. -/
def World.answer (E : Engine σ) (extended : Bool) : (o : Op) → World σ → o.Answer × World σ
  | .engine o, w => w.ask E o
  | .skipping, w => (w.skipUntilSync, w)
  | .stmts, w => (w.stmts, w)
  | .portals, w => (w.portals, w)
  | .setStmts s, w => ((), { w with stmts := s })
  | .setPortals p, w => ((), { w with portals := p })
  | .send m, w => ((), { w with log := w.log ++ [.sent m] })
  | .error fault, w => ((), { w with
      log := w.log ++ [.failed fault]
      failedTxn := w.failedTxn || E.inTransaction w.engine
      skipUntilSync := w.skipUntilSync || extended })
  | .settle, w => ((), { w with failedTxn := w.failedTxn && E.inTransaction w.engine })
  | .stop, w => ((), { w with ended := true })

/-- `status`. -/
def World.status (E : Engine σ) (w : World σ) : Status :=
  if !E.inTransaction w.engine then .idle else if w.failedTxn then .failed else .active

def send (m : Reply) : Session Unit := Program.op (Op.send m)

/-- The error response and what it sets. -/
def fail (fault : Fault) : Session Unit := Program.op (Op.error fault)

/-- Whether the handler is to do nothing. -/
def skipping : Session Bool := Program.op Op.skipping

def stmts : Session Stmts := Program.op Op.stmts

def portals : Session Portals := Program.op Op.portals

def setStmts (s : Stmts) : Session Unit := Program.op (Op.setStmts s)

def setPortals (p : Portals) : Session Unit := Program.op (Op.setPortals p)

def settle : Session Unit := Program.op Op.settle

def stop : Session Unit := Program.op Op.stop

/-- A handler that runs statements. -/
def asking {α : Type} (p : Asking α) : Session α := p.interpret fun o => Program.op (Op.engine o)

def runStmt (stmt : Stmt) (args : List Value) : Asking (Except EngineError ResultSet) :=
  Program.op (EngineOp.run stmt args)

def lastChanges : Asking Int64 := Program.op EngineOp.lastChanges

section

variable {E : Engine σ} {extended : Bool} {w : World σ}

@[simp] theorem run_send (m : Reply) :
    (send m).run (World.answer E extended) w = ((), { w with log := w.log ++ [.sent m] }) := rfl

@[simp] theorem run_fail (fault : Fault) : (fail fault).run (World.answer E extended) w =
    ((), { w with
      log := w.log ++ [.failed fault]
      failedTxn := w.failedTxn || E.inTransaction w.engine
      skipUntilSync := w.skipUntilSync || extended }) := rfl

@[simp] theorem run_skipping : skipping.run (World.answer E extended) w = (w.skipUntilSync, w) := rfl

@[simp] theorem run_stmts : stmts.run (World.answer E extended) w = (w.stmts, w) := rfl

@[simp] theorem run_portals : portals.run (World.answer E extended) w = (w.portals, w) := rfl

@[simp] theorem run_setStmts (s : Stmts) :
    (setStmts s).run (World.answer E extended) w = ((), { w with stmts := s }) := rfl

@[simp] theorem run_setPortals (p : Portals) :
    (setPortals p).run (World.answer E extended) w = ((), { w with portals := p }) := rfl

@[simp] theorem run_settle : settle.run (World.answer E extended) w =
    ((), { w with failedTxn := w.failedTxn && E.inTransaction w.engine }) := rfl

@[simp] theorem run_asking {α : Type} (p : Asking α) :
    (asking p).run (World.answer E extended) w = p.run (World.ask E) w :=
  Program.run_interpret _ p w

end

/-! ## Running statements -/

section

variable (E : Engine σ) (K : Codec)

def liftFault {α : Type} : Except EngineError α → Try α
  | .ok a => pure a
  | .error e => throw (describeError e.message)

/-- The parameters of a statement when some values are bound from the first one on. -/
def boundArgs (nparams : Nat) (values : List Value) : Except EngineError (List Value) :=
  if values.length ≤ nparams then .ok (values ++ List.replicate (nparams - values.length) .null)
  else .error ⟨.errMisuse, "bind index " ++ toString (nparams + 1) ++ " out of range (statement has " ++
    toString nparams ++ " parameters)"⟩

/-- Prepares a text, binds values and executes it. -/
def execute (sql : List Char) (values : List Value) : Try ResultSet := do
  let (stmt, nparams) ← liftFault (E.parse sql)
  let args ← liftFault (boundArgs nparams values)
  let result ← runStmt stmt args
  liftFault result

/-- The wire parameter `$n`. -/
def wireParam (params : List Value) (num : Nat) : Value := if num = 0 then .null else params[num - 1]?.getD .null

/-- The cells a statement hands out. -/
def stepRows (rs : ResultSet) : List Row :=
  rs.rows.map fun row => (List.range rs.columns.length).map fun c => row[c]?.getD .null

def runEngine (sql : List Char) (params : List Value) (order : List Nat) : Try Mat := do
  let rs ← execute E sql (order.map (wireParam params))
  if rs.columns.isEmpty then
    return ⟨[], [], [], commandTag (classify sql) 0 (← lastChanges), false⟩
  else return ⟨rs.columns, engineOids rs, stepRows rs, "SELECT " ++ toString rs.rows.length, true⟩

/-- Runs a row-returning statement with `NULL` parameters for its columns. -/
def dummyColumns (sql : List Char) (orderLen : Nat) : Try (Option (List String × List Int32)) := do
  let rs ← execute E sql (List.replicate orderLen .null)
  return if rs.columns.isEmpty then none else some (rs.columns, engineOids rs)

/-! ## The PostgREST rewrites -/

def WRITE_COLUMNS : List String :=
  ["total_result_set", "page_total", "header", "body", "response_headers", "response_status", "response_inserted"]

def WRITE_OIDS : List Int32 := [25, 20, 1009, 25, 25, 25, 25]

def BODY_COLUMNS : List String :=
  ["total_result_set", "page_total", "body", "response_headers", "response_status", "response_inserted"]

def BODY_OIDS : List Int32 := [20, 20, 114, 25, 25, 25]

/-- The binary form of an empty `text[]`. -/
def emptyTextArrayBinary : List UInt8 := [0, 0, 0, 0, 0, 0, 0, 0, 0, 0, 0, 25]

def writeBodyRow (count : Int64) : Row :=
  [.text "", .int count, .blob emptyTextArrayBinary, .text "", .null, .null, .text ""]

def bodyRowJson (body : List Char) (count : Int64) : Row :=
  [.null, .int count, .text (String.ofList body), .null, .null, .text ""]

def jsonObject (columns : List String) (row : Row) : List Char :=
  ['\x7b'] ++ [','].intercalate (columns.zipIdx.map fun (name, c) =>
    K.jsonString name.toList ++ [':'] ++ K.jsonValue (row[c]?.getD .null)) ++ ['\x7d']

/-- `json_array` and `rows_to_json`. -/
def jsonArray (columns : List String) (rows : List Row) : List Char :=
  ['['] ++ [','].intercalate (rows.map (jsonObject K columns)) ++ [']']

def commaList (parts : List (List Char)) : List Char := ", ".toList.intercalate parts

def bodyText (params : List Value) : Except Fault (List Char) := match params.head? with
  | some (.text s) => .ok s.toList
  | some (.blob b) => .ok (K.utf8Lossy b)
  | _ => .error ("22023", "missing JSON request body")

/-- The rows of the request body. -/
def bodyRows (columns : List (List Char)) (params : List Value) : Except Fault (List Row) := do
  let body ← bodyText K params
  match K.jsonRows body columns with
  | .ok rows => return rows
  | .error e => throw ("22023", e)

def whereTail (whereClause : List Char) : List Char :=
  if whereClause.isEmpty then [] else " WHERE ".toList ++ whereClause

def runPgrstUpdate (plan : UpdatePlan) (params : List Value) : Try Int64 := do
  let rows ← (bodyRows K plan.setColumns params : Except Fault _)
  let assignments := commaList (plan.setColumns.map fun c => c ++ " = ?".toList)
  let (sql, order) := rewritePlaceholders
    ("UPDATE ".toList ++ plan.table ++ " SET ".toList ++ assignments ++ whereTail plan.whereClause)
  let _ ← execute E sql (rows.headD [] ++ order.map (wireParam params))
  lastChanges

def runPgrstDelete (plan : DeletePlan) (params : List Value) : Try Int64 := do
  let (sql, order) := rewritePlaceholders ("DELETE FROM ".toList ++ plan.table ++ whereTail plan.whereClause)
  let _ ← execute E sql (order.map (wireParam params))
  lastChanges

/-- Each element in turn, up to an error. -/
def tryMap {α β : Type} (f : α → Try β) : List α → Try (List β)
  | [] => return []
  | a :: as => do
    let b ← f a
    return b :: (← tryMap f as)

/-- One `INSERT` for each row of the body. -/
def runPgrstInsert (plan : InsertPlan) (params : List Value) : Try Int64 := do
  let rows ← (bodyRows K plan.columns params : Except Fault _)
  let sql := "INSERT INTO ".toList ++ plan.table ++ " (".toList ++ commaList plan.columns ++ ") VALUES (".toList ++
    commaList (plan.columns.map fun _ => ['?']) ++ [')']
  let _ ← tryMap (execute E sql) rows
  return Int64.ofNat rows.length

/-- The columns an embedding read fetches of its base table, once each. -/
def embedFetch (items : List EmbedItem) : List (List Char) :=
  items.foldl (fun fetch item =>
    let c := match item with
      | .column _ column => column
      | .relation e => e.baseCol
    if fetch.contains c then fetch else fetch ++ [c]) []

def runEmbedRelation (e : Embed) (key : Value) : Try (List String × List Row) := do
  let rs ← execute E ("SELECT ".toList ++ commaList e.relColumns ++ " FROM ".toList ++ e.relTable ++ " WHERE ".toList ++
    e.relCol ++ " = ?".toList) [key]
  return (rs.columns, stepRows rs)

/-- A cell of a base row by the name of its column. -/
def cellNamed (columns : List String) (row : Row) (name : List Char) : Value :=
  ((columns.findIdx? fun c => c.toList = name).bind fun i => row[i]?).getD .null

def embedMember (base : Mat) (row : Row) : EmbedItem → Try (List Char)
  | .column key column => return K.jsonString key ++ [':'] ++ K.jsonValue (cellNamed base.columns row column)
  | .relation e => do
    let (columns, rows) ← runEmbedRelation E e (cellNamed base.columns row e.baseCol)
    let value := if e.toMany then jsonArray K columns rows else match rows with
      | first :: _ => jsonObject K columns first
      | [] => "null".toList
    return K.jsonString e.key ++ [':'] ++ value

/-- One object of the body. -/
def embedObject (items : List EmbedItem) (base : Mat) (row : Row) : Try (List Char) := do
  let members ← tryMap (embedMember E K base row) items
  return ['\x7b'] ++ [','].intercalate members ++ ['\x7d']

def runPgrstEmbed (plan : EmbedRead) (params : List Value) : Try (List Char × Int64) := do
  let tail := if plan.baseTail.isEmpty then [] else [' '] ++ plan.baseTail
  let (sql, order) := rewritePlaceholders
    ("SELECT ".toList ++ commaList (embedFetch plan.items) ++ " FROM ".toList ++ plan.baseTable ++ tail)
  let base ← runEngine E sql params order
  let objects ← tryMap (embedObject E K plan.items base) base.rows
  return (['['] ++ [','].intercalate objects ++ [']'], Int64.ofNat objects.length)

/-! ## Portals -/

/-- A statement the server answers itself, its reflections resolved. -/
inductive Inspected where
  | rows (t : Table)
  | tag (tag : String)
  | pass

def inspect (sql : List Char) : Asking Inspected := match intercept sql K.user K.database K.pid with
  | .rows columns oids rows tag => return .rows ⟨columns, oids, rows, tag⟩
  | .tag tag => return .tag tag
  | .reflect kind => return .rows (← (Program.op (EngineOp.reflect kind) : Asking Table))
  | .stats => return .rows (← (Program.op EngineOp.stats : Asking Table))
  | .catalog kind => return .rows (← (Program.op (EngineOp.catalog kind) : Asking Table))
  | .pass => return .pass

/-- A write's response: one row with the number of rows affected. -/
def writeResult (count : Int64) : Mat := ⟨WRITE_COLUMNS, WRITE_OIDS, [writeBodyRow count], "SELECT 1", true⟩

def bodyResult (row : Row) : Mat := ⟨BODY_COLUMNS, BODY_OIDS, [row], "SELECT 1", true⟩

/-- One run of a prepared statement with its parameters. -/
def produce (prep : Prepared) (params : List Value) : Try Mat := match prep.postprocess with
  | .pgrstRead => do
    let inner ← runEngine E prep.sql params prep.order
    return bodyResult (bodyRowJson (jsonArray K inner.columns inner.rows) (Int64.ofNat inner.rows.length))
  | .pgrstEmbed plan => do
    let (body, count) ← runPgrstEmbed E K plan params
    return bodyResult (bodyRowJson body count)
  | .pgrstInsert plan => do return writeResult (← runPgrstInsert E K plan params)
  | .pgrstUpdate plan => do return writeResult (← runPgrstUpdate E K plan params)
  | .pgrstDelete plan => do return writeResult (← runPgrstDelete E plan params)
  | .none => do
    match ← (inspect K prep.sql : Asking Inspected) with
    | .rows t => return ⟨t.columns, resolveOids t.oids t.columns t.rows, t.rows, t.tag, true⟩
    | .tag tag => return ⟨[], [], [], tag, false⟩
    | .pass => runEngine E prep.sql params prep.order

def putStmt (name : String) (prep : Prepared) : Session Unit := do
  setStmts ((← stmts).insert name prep)

def putPortal (name : String) (p : Portal) : Session Unit := do
  setPortals ((← portals).insert name p)

/-- The portal with its result: the one it holds, or that of running its statement now, which
it then holds. The statement is looked up by its name. -/
def materialize (name : String) : Session (Except Fault (Portal × Mat)) := do
  match (← portals).lookup name with
  | none => return .error ("34000", "unknown portal '" ++ name ++ "'")
  | some p => match p.materialized with
    | some mat => return .ok (p, mat)
    | none => match (← stmts).lookup p.stmt with
      | none => return .error ("26000", "unknown statement '" ++ p.stmt ++ "'")
      | some prep => match ← asking (produce E K prep p.params).run with
        | .error fault => return .error fault
        | .ok mat =>
          putPortal name { p with materialized := some mat }
          return .ok (p, mat)

/-! ## The extended query protocol -/

/-- The end of `parse`: a text for the engine, or one that the server answers itself. -/
def prepareText (name : String) (sql : List Char) (paramOids : List Int32) (engineSql : List Char)
    (postprocess : Postprocess) : Session Unit := do
  let toEngine := postprocess = .pgrstRead || intercept sql K.user K.database K.pid = .pass
  match if postprocess = .none then unsupportedCatalogReason sql else none with
  | some reason => fail ("0A000", reason)
  | none =>
    if toEngine then
      let (rewritten, order) := rewritePlaceholders engineSql
      match E.parse rewritten with
      | .error e => fail (describeError e.message)
      | .ok _ =>
        putStmt name ⟨rewritten, order, order.foldl max 0, paramOids, postprocess⟩
        send .parseComplete
    else
      putStmt name ⟨sql, [], 0, paramOids, .none⟩
      send .parseComplete

/-- `parse`, of a text that is no write and no embedding read; `inner` is the rewritten
inner query of a read. -/
def parseEngine (name : String) (sql : List Char) (paramOids : List Int32) (inner : Option (List Char)) :
    Session Unit := match isRead sql, inner with
  | true, some inner => prepareText E K name sql paramOids inner .pgrstRead
  | _, _ => prepareText E K name sql paramOids sql .none

def Write.postprocess : Write → Postprocess
  | .insert plan => .pgrstInsert plan
  | .update plan => .pgrstUpdate plan
  | .delete plan => .pgrstDelete plan

def parse (name : String) (sql : List Char) (paramOids : List Int32) : Session Unit := do
  if ← skipping then return
  match parseWrite sql with
  | some write =>
    putStmt name ⟨sql, [], max (maxParam sql) 1, paramOids, write.postprocess⟩
    send .parseComplete
  | none => match parseEmbed K.isAlphanumeric sql with
    | .error _ => stop
    | .ok (some embed) =>
      putStmt name ⟨sql, [], maxParam sql, paramOids, .pgrstEmbed embed⟩
      send .parseComplete
    | .ok none => match rewriteRead sql with
      | .error _ => stop
      | .ok inner => parseEngine E K name sql paramOids inner

def bind (portal stmt : String) (paramFormats : List Int16) (params : List (Option (List UInt8)))
    (resultFormats : List Int16) : Session Unit := do
  if ← skipping then return
  match (← stmts).lookup stmt with
  | none => fail ("26000", "unknown prepared statement '" ++ stmt ++ "'")
  | some _ =>
    let values := params.zipIdx.map fun (raw, i) => decodeParam K raw (fmtAt paramFormats i)
    putPortal portal ⟨stmt, values, resultFormats, none⟩
    send .bindComplete

/-- The description of a prepared statement's result. -/
def describePrepared (prep : Prepared) : Session Unit := match prep.postprocess with
  | .pgrstRead | .pgrstEmbed _ => send (.rowDescription (fields BODY_COLUMNS BODY_OIDS []))
  | .pgrstInsert _ | .pgrstUpdate _ | .pgrstDelete _ => send (.rowDescription (fields WRITE_COLUMNS WRITE_OIDS []))
  | .none => do
    match ← asking (inspect K prep.sql) with
    | .rows t => send (.rowDescription (fields t.columns (resolveOids t.oids t.columns t.rows) []))
    | .tag _ => send .noData
    | .pass =>
      if isRowReturning prep.sql then
        match ← asking (dummyColumns E prep.sql prep.order.length).run with
        | .ok (some (columns, oids)) => send (.rowDescription (fields columns oids []))
        | .ok none => send .noData
        | .error fault => fail fault
      else send .noData

def describe (kind : Char) (name : String) : Session Unit := do
  if ← skipping then return
  if kind = 'S' then
    match (← stmts).lookup name with
    | none => fail ("26000", "unknown statement '" ++ name ++ "'")
    | some prep =>
      send (.parameterDescription (paramOidsFor prep))
      describePrepared E K prep
  else
    match ← materialize E K name with
    | .ok (p, mat) =>
      send (if mat.hasRows then .rowDescription (fields mat.columns mat.oids p.resultFormats) else .noData)
    | .error fault => fail fault

def sendRows (formats : List Int16) : List Row → Session Unit
  | [] => return
  | row :: rows => do
    send (.dataRow (cells formats row))
    sendRows formats rows

def executePortal (name : String) : Session Unit := do
  if ← skipping then return
  match ← materialize E K name with
  | .error fault => fail fault
  | .ok (p, mat) =>
    if mat.hasRows then sendRows p.resultFormats mat.rows
    send (.commandComplete mat.tag)
    settle
    putPortal name { p with materialized := none }

/-- `close`, which does not look whether messages are skipped. -/
def close (kind : Char) (name : String) : Session Unit := do
  if kind = 'S' then
    setStmts ((← stmts).erase name)
  else
    setPortals ((← portals).erase name)
  send .closeComplete

/-! ## The simple query protocol -/

/-- Sends a result with its description. -/
def sendTable (t : Table) : Session Unit := do
  send (.rowDescription (fields t.columns t.oids []))
  sendRows [] t.rows
  send (.commandComplete t.tag)

/-- Whether the statement went well. -/
def runSimpleOne (sql : List Char) : Session Bool := do
  match ← asking (inspect K sql) with
  | .rows t =>
    sendTable { t with oids := resolveOids t.oids t.columns t.rows }
    return true
  | .tag tag =>
    send (.commandComplete tag)
    return true
  | .pass => match unsupportedCatalogReason sql with
    | some reason =>
      fail ("0A000", reason)
      return false
    | none =>
      let query : Try ResultSet := do
        let (stmt, _) ← liftFault (E.parse sql)
        let result ← runStmt stmt []
        liftFault result
      match ← asking query.run with
      | .error fault =>
        fail fault
        return false
      | .ok rs =>
        if rs.columns.isEmpty then
          send (.commandComplete (commandTag (classify sql) 0 (← asking lastChanges)))
        else sendTable ⟨rs.columns, engineOids rs, rs.rows, "SELECT " ++ toString rs.rows.length⟩
        return true

/-- The statements of a simple query, up to the first that fails. -/
def runSimple : List (List Char) → Session Unit
  | [] => return
  | sql :: rest => do
    if ← runSimpleOne E K sql then
      settle
      runSimple rest

def simpleQuery (sql : List Char) : Session Unit := match splitStatements sql with
  | [] => send .emptyQueryResponse
  | stmts => runSimple E K stmts

/-! ## The command loop -/

def handler : Frontend → Session Unit
  | .query sql => simpleQuery E K sql
  | .parse name sql paramOids => parse E K name sql paramOids
  | .bind portal stmt paramFormats params resultFormats => bind K portal stmt paramFormats params resultFormats
  | .describe kind name => describe E K kind name
  | .execute portal _ => executePortal E K portal
  | .close kind name => close kind name
  | .sync | .flush => return
  | .terminate => stop
  | .unsupported tag => fail ("0A000", "unsupported protocol message '" ++ String.singleton tag ++ "'")

/-- Every message but a simple query speaks the extended protocol. -/
def Frontend.extended : Frontend → Bool
  | .query _ => false
  | _ => true

/-- A `Query` and a `Sync` end with a `ReadyForQuery`. -/
def World.ready (w : World σ) : World σ := { w with log := w.log ++ [.ready (w.status E)] }

/-- One turn of the command loop. -/
def World.turn (w : World σ) (m : Frontend) : World σ :=
  let w := ((handler E K m).run (World.answer E m.extended) w).2
  match m with
  | .query _ => w.ready E
  | .sync => { w with skipUntilSync := false }.ready E
  | _ => w

/-- `serve`: a turn, until the session has ended. -/
def World.step (w : World σ) (m : Frontend) : Option (World σ) := if w.ended then none else some (w.turn E K m)

end

/-- A session that was just opened and announced itself. -/
def World.init (E : Engine σ) (engine : σ) : World σ := World.ready E ⟨engine, ∅, ∅, false, false, false, []⟩

/-! ## A small engine -/

/-- An engine that keeps whether a transaction is open and which statements ran. -/
def Engine.ledger : Engine (Bool × List Stmt) where
  parse sql := match parseSql Grammar.bare sql with
    | .ok r => .ok r
    | .error (.err e) => .error e
    | .error _ => .error ⟨.errInternal, "panic"⟩
  run s stmt _ := match stmt, s.1 with
    | .begin, true => (.error ⟨.errTxn, "a transaction is already active"⟩, s)
    | .begin, false => (.ok ⟨[], [], []⟩, true, s.2 ++ [stmt])
    | .commit, false => (.error ⟨.errTxn, "no active transaction to commit"⟩, s)
    | .rollback, false => (.error ⟨.errTxn, "no active transaction to roll back"⟩, s)
    | .commit, true | .rollback, true => (.ok ⟨[], [], []⟩, false, s.2 ++ [stmt])
    | _, _ => (.ok ⟨[], [], []⟩, s.1, s.2 ++ [stmt])
  inTransaction s := s.1
  lastChanges _ := 0
  reflect _ _ := ⟨[], [], [], "SELECT 0"⟩
  stats _ := ⟨[], [], [], "SELECT 0"⟩
  catalog _ _ := ⟨[], [], [], "SELECT 0"⟩

/-- A codec of ASCII text. -/
def Codec.ascii : Codec where
  user := "u"
  database := "d"
  pid := 1
  isAlphanumeric := Char.isAlphanum
  utf8Lossy bytes := bytes.map fun b => Char.ofNat b.toNat
  parseF64 _ := none
  jsonRows _ _ := .error "not at hand"
  jsonValue _ := "null".toList
  jsonString s := ['"'] ++ s ++ ['"']

end Twill.Server
