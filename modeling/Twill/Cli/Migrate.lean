/-
Migrations (`cli/src/manage/migrate.rs`): `migrate up` over a directory of files.

`up` is a program of statements sent to a database. Each statement carries, beside
its text, where in `up` it comes from. The database is one connection to a durable
image: a log of what migration statements did, and the tracking table. What a
statement of a file does to the transaction and to the tracking table is the
database's (`Database`). A fate decides each answer: the statement is carried out,
or it fails, with or without its effect, and the connection may go with it. A crash
of the tool is a lost connection: nothing sent after it has an effect.
-/
import Twill.Lib.Program
import Twill.Value
import Twill.Numerals

namespace Twill.Migrate

/-! ## Files -/

/-- A migration file discovered on disk. -/
structure MigrationFile where
  version : String
  name : String
  path : String
  body : String
  deriving DecidableEq, Repr

/-- What `load_migrations` asks of a directory entry; the extension and the stem are
`none` when absent or not UTF-8. -/
structure Entry where
  path : String
  extension : Option String
  stem : Option String
  body : Except String String

/-- A directory as `read_dir` lists it; `none` when it does not exist. -/
structure Directory where
  path : String
  listing : Option (Except String (List (Except String Entry)))

/-- `str::split_once('_')`. -/
def splitOnce (stem : String) : Option (String × String) :=
  let before := stem.toList.takeWhile (· != '_')
  match stem.toList.dropWhile (· != '_') with
  | [] => none
  | _ :: after => some (String.ofList before, String.ofList after)

/-- One entry of the listing: a file, or nothing for another extension. -/
def readEntry (e : Entry) : Except String (Option MigrationFile) := do
  if e.extension != some "sql" then return none
  let stem ← match e.stem with
    | some stem => pure stem
    | none => throw s!"non-UTF-8 migration filename: {e.path}"
  let (version, name) := match splitOnce stem with
    | some (v, n) => (v, n)
    | none => (stem, "")
  let body ← e.body.mapError fun err => s!"reading {e.path}: {err}"
  return some { version, name, path := e.path, body }

def readEntries : List (Except String Entry) → Except String (List MigrationFile)
  | [] => return []
  | entry :: rest => do
    let file ← readEntry (← entry)
    return file.toList ++ (← readEntries rest)

/-- The first two neighbours of one version. -/
def sharedVersion : List MigrationFile → Option (MigrationFile × MigrationFile)
  | a :: b :: rest => if a.version = b.version then some (a, b) else sharedVersion (b :: rest)
  | _ => none

def loadMigrations (dir : Directory) : Except String (List MigrationFile) :=
  match dir.listing with
  | none => return []
  | some listing => do
    let entries ← listing.mapError fun e => s!"reading {dir.path}/: {e}"
    let files := (← readEntries entries).insertionSort fun a b => a.version ≤ b.version
    match sharedVersion files with
    | some (a, b) => throw s!"two migrations share version {a.version}: {a.path} and {b.path}"
    | none => return files

/-! ## SQL helpers -/

/-- Where the splitter stands. -/
inductive Scan where
  | plain
  | single
  | double
  | line
  | block

/-- `bytes[i] as char`: each byte of a text is one character. -/
def byteChars (s : String) : List Char := (s.toList.flatMap String.utf8EncodeChar).map fun b => Char.ofNat b.toNat

/-- A statement read so far, if there is more than whitespace in it. -/
def finished (cur : List Char) : List String :=
  let t := trimText (String.ofList cur)
  if t.isEmpty then [] else [t]

/-- The loop of `split_statements`; `cur` is the statement read so far. -/
def splitLoop : Scan → List Char → List Char → List String
  | _, cur, [] => finished cur
  | .single, cur, c :: rest => splitLoop (if c == '\'' then .plain else .single) (cur ++ [c]) rest
  | .double, cur, c :: rest => splitLoop (if c == '"' then .plain else .double) (cur ++ [c]) rest
  | .line, cur, c :: rest =>
    -- The newline that ends a line comment belongs to the statement.
    if c == '\n' then splitLoop .plain (cur ++ [c]) rest else splitLoop .line cur rest
  | .block, cur, '*' :: '/' :: rest => splitLoop .plain cur rest
  | .block, cur, [_] => finished cur
  | .block, cur, _ :: rest => splitLoop .block cur rest
  | .plain, cur, '-' :: '-' :: rest => splitLoop .line cur rest
  | .plain, cur, '/' :: '*' :: rest => splitLoop .block cur rest
  | .plain, cur, c :: rest =>
    match c with
    | '\'' => splitLoop .single (cur ++ [c]) rest
    | '"' => splitLoop .double (cur ++ [c]) rest
    | ';' => finished cur ++ splitLoop .plain [] rest
    | _ => splitLoop .plain (cur ++ [c]) rest

def splitStatements (sql : String) : List String := splitLoop .plain [] (byteChars sql)

def isDdl (stmt : String) : Bool :=
  let first := (stmt.toList.dropWhile isWhitespace).takeWhile fun c => !isWhitespace c
  ["CREATE", "ALTER", "DROP"].contains (String.ofList (first.map Char.toUpper))

def sqlLit (s : String) : String :=
  String.ofList (s.toList.flatMap fun c => if c == '\'' then ['\'', '\''] else [c])

def fnv1aHex (s : String) : String :=
  let h := (s.toList.flatMap String.utf8EncodeChar).foldl
    (fun h b => (h ^^^ b.toUInt64) * 0x00000100000001B3) (0xcbf29ce484222325 : UInt64)
  String.ofList ((Nat.toDigits 16 h.toNat).leftpad 16 '0')

/-- `unix_to_utc`: year, month, day, hour, minute, second. -/
def unixToUtc (secs : Int) : Int × Int × Int × Int × Int × Int :=
  let days := secs / 86400
  let rem := secs % 86400
  let z := days + 719468
  let era := (if 0 ≤ z then z else z - 146096).tdiv 146097
  let doe := z - era * 146097
  let yoe := (doe - doe / 1460 + doe / 36524 - doe / 146096) / 365
  let y := yoe + era * 400
  let doy := doe - (365 * yoe + yoe / 4 - yoe / 100)
  let mp := (5 * doy + 2) / 153
  let day := doy - (153 * mp + 2) / 5 + 1
  let month := if mp < 10 then mp + 3 else mp - 9
  (if month ≤ 2 then y + 1 else y, month, day, rem / 3600, rem % 3600 / 60, rem % 60)

def stampIso (secs : Int) : String :=
  let (y, mo, d, h, mi, s) := unixToUtc secs
  s!"{padded 4 y}-{padded 2 mo}-{padded 2 d}T{padded 2 h}:{padded 2 mi}:{padded 2 s}Z"

/-! ## The program -/

def trackingTable : String := "_twilldb_migrations"

/-- A row of the tracking table. -/
structure Record where
  version : String
  name : String
  checksum : String
  appliedAt : String
  deriving DecidableEq, Repr

/-- Which statement of `up` is sent. -/
inductive Origin where
  | track
  | begin (f : MigrationFile)
  | statement (f : MigrationFile) (sql : String)
  | rollback (f : MigrationFile)
  | commit (f : MigrationFile)
  | record (r : Record)
  deriving DecidableEq, Repr

/-- What `up` asks of its connection: a statement for its effect, or the version and
the checksum of every row of the tracking table. -/
inductive Call where
  | exec (origin : Origin) (sql : String)
  | applied (sql : String)

def Call.Answer : Call → Type
  | .exec _ _ => Except String Unit
  | .applied _ => Except String (List (String × String))

abbrev Migrate := ExceptT String (Program Call Call.Answer)

def exec (origin : Origin) (sql : String) : Migrate Unit := ExceptT.mk (Program.op (Call.exec origin sql))

def ensureTrackingTable : Migrate Unit :=
  (exec .track (s!"CREATE TABLE IF NOT EXISTS {trackingTable} (version TEXT PRIMARY KEY, name TEXT NOT NULL, " ++
    "checksum TEXT NOT NULL, applied_at TEXT NOT NULL)")).adapt fun e => s!"creating {trackingTable}: {e}"

def appliedVersions : Migrate (List (String × String)) :=
  ExceptT.adapt (fun e => s!"reading {trackingTable}: {e}")
    (ExceptT.mk (Program.op (Call.applied s!"SELECT version, checksum FROM {trackingTable} ORDER BY version")))

/-- Insert the tracking row for a freshly applied migration. -/
def recordApplied (version name checksum : String) (now : Int) : Migrate Unit :=
  let row : Record := { version, name, checksum, appliedAt := stampIso now }
  (exec (.record row) (s!"INSERT INTO {trackingTable} (version, name, checksum, applied_at) VALUES " ++
    s!"('{sqlLit version}', '{sqlLit name}', '{sqlLit checksum}', '{sqlLit (stampIso now)}')")).adapt
      fun e => s!"recording migration: {e}"

/-- A statement of a file run in autocommit. -/
def applyAlone (f : MigrationFile) (s : String × Nat) : Migrate Unit :=
  (exec (.statement f s.1) s.1).adapt fun e => s!"statement #{s.2 + 1}: {e}"

/-- A statement of a file run inside the file's transaction. -/
def applyWithin (f : MigrationFile) (s : String × Nat) : Migrate Unit := do
  match ← Program.attempt (exec (.statement f s.1) s.1) with
  | .ok () => return ()
  | .error e =>
    let _ ← Program.attempt (exec (.rollback f) "ROLLBACK")
    throw s!"statement #{s.2 + 1}: {e}"

/-- The statements of a file: DML-only → one transaction; any DDL → autocommit per
statement. -/
def applyStatements (f : MigrationFile) : Migrate Unit :=
  let statements := splitStatements f.body
  if statements.any isDdl then statements.zipIdx.forM (applyAlone f)
  else do
    exec (.begin f) "BEGIN"
    statements.zipIdx.forM (applyWithin f)
    exec (.commit f) "COMMIT"

def applyOne (f : MigrationFile) (now : Int) : Migrate Unit := do
  applyStatements f
  recordApplied f.version f.name (fnv1aHex f.body) now

def driftWarnings (files : List MigrationFile) (applied : List (String × String)) : String :=
  files.foldl (fun out f =>
    match applied.find? (·.1 == f.version) with
    | some (_, checksum) =>
      if checksum != fnv1aHex f.body then
        out ++ s!"warning: {f.version}_{f.name} was edited after it was applied (checksum drift)\n"
      else out
    | none => out) ""

/-- The loop of `up`, with the output and the count so far. -/
def applyPending (now : Int) : List MigrationFile → String → Nat → Migrate String
  | [], out, count => return out ++ s!"{count} migration(s) applied"
  | f :: rest, out, count => do
    (applyOne f now).adapt fun e => s!"{out}applying migration {f.version}_{f.name}: {e}"
    applyPending now rest (out ++ s!"applied {f.version}_{f.name}\n") (count + 1)

/-- `migrate up`: apply every pending migration in order, recording each. -/
def up (dir : Directory) (now : Int) : Migrate String := do
  ensureTrackingTable
  let files ← ExceptT.mk (pure (loadMigrations dir))
  let applied ← appliedVersions
  let out := driftWarnings files applied
  let pending := files.filter fun f => !applied.any fun a => a.1 == f.version
  if pending.isEmpty then return out ++ "nothing to apply (database is up to date)"
  applyPending now pending out 0

/-! ## The database -/

/-- What a statement of a file does to the transaction. -/
inductive Control where
  | begin
  | commit
  | rollback
  | savepoint (name : String)
  | rollbackTo (name : String)
  | release (name : String)
  deriving DecidableEq, Repr

/-- How the database takes the statements of the files: which control the transaction,
what the others do to the rows of the tracking table (`none` when there is no such
table), and the texts of its errors. -/
structure Database where
  control : String → Option Control
  tracked : String → Option (List Record) → Option (List Record)
  refusal : Origin → String
  lost : String

/-- The effect of one statement of a file. -/
structure Effect where
  version : String
  sql : String
  deriving DecidableEq, Repr

/-- What a session sees: every effect of a migration, oldest first, and the tracking table. -/
structure Image where
  effects : List Effect
  tracking : Option (List Record)
  deriving DecidableEq, Repr

def Image.empty : Image := { effects := [], tracking := none }

def Image.createTracking (im : Image) : Image := { im with tracking := some (im.tracking.getD []) }

/-- The tracking insert; `version` is the primary key. -/
def Image.insert (im : Image) (r : Record) : Option Image := do
  let rows ← im.tracking
  if rows.any fun row => row.version == r.version then none
  else some { im with tracking := some (rows ++ [r]) }

/-- An open transaction, with the image at each savepoint, latest first. -/
structure Txn where
  image : Image
  savepoints : List (String × Image)
  deriving DecidableEq, Repr

structure Db where
  durable : Image
  txn : Option Txn
  deriving DecidableEq, Repr

/-- What the session's next statement sees. -/
def Db.image (db : Db) : Image := db.txn.elim db.durable (·.image)

/-- A statement's effect, in the open transaction or committed at once. -/
def Db.put (db : Db) (im : Image) : Db :=
  match db.txn with
  | some t => { db with txn := some { t with image := im } }
  | none => { db with durable := im }

/-- A transaction-control statement; `none` when the database refuses it. -/
def Db.control (db : Db) : Control → Option Db
  | .begin => if db.txn.isSome then none else some { db with txn := some ⟨db.durable, []⟩ }
  | .commit => db.txn.map fun t => { durable := t.image, txn := none }
  | .rollback => db.txn.map fun _ => { db with txn := none }
  | .savepoint name => db.txn.map fun t => { db with txn := some { t with savepoints := (name, t.image) :: t.savepoints } }
  | .rollbackTo name => do
    let t ← db.txn
    match t.savepoints.dropWhile (·.1 != name) with
    | [] => none
    | (n, im) :: rest => some { db with txn := some ⟨im, (n, im) :: rest⟩ }
  | .release name => do
    let t ← db.txn
    match t.savepoints.dropWhile (·.1 != name) with
    | [] => none
    | _ :: rest => some { db with txn := some { t with savepoints := rest } }

/-- A statement of `up` carried out; `none` when the database refuses it. -/
def Database.perform (D : Database) (db : Db) : Origin → Option Db
  | .track => some (db.put db.image.createTracking)
  | .begin _ => db.control .begin
  | .commit _ => db.control .commit
  | .rollback _ => db.control .rollback
  | .record r => (db.image.insert r).map db.put
  | .statement f sql =>
    match D.control sql with
    | some c => db.control c
    | none =>
      some (db.put { effects := db.image.effects ++ [⟨f.version, sql⟩], tracking := D.tracked sql db.image.tracking })

/-- How a statement sent ends. -/
inductive Fate where
  | done
  | failed (message : String) (took alive : Bool)
  deriving DecidableEq, Repr

def Fate.took : Fate → Bool
  | .done => true
  | .failed _ took _ => took

def Fate.alive : Fate → Bool
  | .done => true
  | .failed _ _ alive => alive

/-- A statement sent: whether it took effect, and the tracking table the session saw
before and after. -/
structure Event where
  origin : Origin
  took : Bool
  before : Option (List Record)
  after : Option (List Record)
  deriving DecidableEq, Repr

/-- An attempt under way; the trace is newest first. -/
structure World where
  db : Db
  alive : Bool
  fates : List Fate
  trace : List Event

/-- The world after a statement that ended at `db`. -/
def World.log (w : World) (o : Origin) (took alive : Bool) (db : Db) : World :=
  { db, alive, fates := w.fates.tail, trace := ⟨o, took, w.db.image.tracking, db.image.tracking⟩ :: w.trace }

/-- A statement sent over a live connection. -/
def Database.answer (D : Database) (o : Origin) (w : World) (fate : Fate) : Except String Unit × World :=
  let reply : Except String Unit := match fate with
    | .done => .ok ()
    | .failed message _ _ => .error message
  match fate.took, D.perform w.db o with
  | false, _ => (reply, w.log o false fate.alive w.db)
  | true, some db => (reply, w.log o true fate.alive db)
  | true, none => (.error (D.refusal o), w.log o false fate.alive w.db)

def Database.exec (D : Database) (o : Origin) (w : World) : Except String Unit × World :=
  if w.alive then D.answer o w (w.fates.headD .done) else (.error D.lost, w.log o false false w.db)

/-- `SELECT version, checksum … ORDER BY version`. -/
def Database.applied (D : Database) (w : World) : Except String (List (String × String)) × World :=
  if w.alive = false then (.error D.lost, w)
  else
    let next := { w with alive := (w.fates.headD .done).alive, fates := w.fates.tail }
    match w.fates.headD .done with
    | .failed message _ _ => (.error message, next)
    | .done =>
      match w.db.image.tracking with
      | none => (.error (D.refusal .track), next)
      | some rows =>
        (.ok ((rows.insertionSort fun a b => a.version ≤ b.version).map fun r => (r.version, r.checksum)), next)

def Database.handler (D : Database) : (c : Call) → World → c.Answer × World
  | .exec origin _, w => D.exec origin w
  | .applied _, w => D.applied w

/-! ## Attempts -/

/-- One run of `migrate up`: its clock, and how the statements it sends end. -/
structure Attempt where
  now : Int
  fates : List Fate

/-- A run of `up` on a database in its durable state; an open transaction ends with the
connection. -/
def attempt (D : Database) (dir : Directory) (im : Image) (a : Attempt) : Except String String × World :=
  (up dir a.now).run.run D.handler { db := ⟨im, none⟩, alive := true, fates := a.fates, trace := [] }

/-- A run of `up` and its re-runs, each on what the one before left durable. -/
def attempts (D : Database) (dir : Directory) (im : Image) : List Attempt → List (Except String String × World)
  | [] => []
  | a :: rest => attempt D dir im a :: attempts D dir (attempt D dir im a).2.db.durable rest

end Twill.Migrate
