/-
The PostgREST templates the server recognises (`datapath.rs`) and the catalog
queries it refuses (`capability.rs`), from their text alone.

The source finds places in a lower-case copy and cuts the text there; a cut here
is by characters, which the copy keeps. Where the source slices inside a character
the result is a panic.
-/
import Twill.Lex
import Twill.Server.Introspect

namespace Twill.Server

open Text (trim trimStart trimEnd)

/-- The text before the first place a pattern occurs in lower case, and what follows it. -/
def cutLower (pat : String) (s : List Char) : Option (List Char × List Char) :=
  (Text.splitAt pat.toList (lower s)).map fun r => (s.take r.1.length, s.drop (r.1.length + pat.length))

/-- The text before the first such character, and what follows it. -/
def cutChar (c : Char) (s : List Char) : Option (List Char × List Char) :=
  match s.dropWhile fun d => d != c with
  | [] => none
  | _ :: rest => some (s.takeWhile fun d => d != c, rest)

/-- The text before the last place a pattern occurs, and what follows it. -/
def rcutLower (pat : String) (s : List Char) : Option (List Char × List Char) :=
  (Text.splitAt pat.toList.reverse (lower s).reverse).map fun r =>
    (s.take (s.length - r.1.length - pat.length), s.drop (s.length - r.1.length))

/-- The text before the parenthesis that closes the group that is open. -/
def groupEnd : Nat → List Char → Option (List Char × List Char)
  | _, [] => none
  | depth, '(' :: s => (groupEnd (depth + 1) s).map fun r => ('(' :: r.1, r.2)
  | depth, ')' :: s => if depth ≤ 1 then some ([], s) else (groupEnd (depth - 1) s).map fun r => (')' :: r.1, r.2)
  | depth, c :: s => (groupEnd depth s).map fun r => (c :: r.1, r.2)

def templateMarker : String := "pgrst_source as ("

/-- The text inside `pgrst_source AS ( … )`. -/
def innerCte (sql : List Char) : Option (List Char) := do
  let (_, rest) ← cutLower templateMarker sql
  let (inner, _) ← groupEnd 1 rest
  return inner

def unquote (s : List Char) : List Char := trim (· == '"') (trim isWhitespace s)

/-- The last dotted, optionally-quoted identifier segment. -/
def lastIdent (s : List Char) : List Char := unquote ((s.splitOn '.').getLastD s)

/-- Drops schema and table qualifiers and quotes; other bytes become characters. -/
def stripQualifiers (inner : List Char) : List Char :=
  go inner.length (inner.filter fun c => c != '"')
where
  isHead (c : Char) : Bool := c == '_' || c.isAlpha
  isRest (c : Char) : Bool := c == '_' || c.isAlphanum
  go : Nat → List Char → List Char
    | 0, _ | _, [] => []
    | fuel + 1, c :: s =>
      if isHead c then match (c :: s).dropWhile isRest with
        | '.' :: rest => go fuel rest
        | rest => (c :: s).takeWhile isRest ++ go fuel rest
      else (String.utf8EncodeChar c).map (fun b => Char.ofNat b.toNat) ++ go fuel s

/-! ## Writes -/

structure InsertPlan where
  table : List Char
  columns : List (List Char)
  deriving DecidableEq, Repr

structure UpdatePlan where
  table : List Char
  setColumns : List (List Char)
  whereClause : List Char
  deriving DecidableEq, Repr

structure DeletePlan where
  table : List Char
  whereClause : List Char
  deriving DecidableEq, Repr

inductive Write where
  | insert (plan : InsertPlan)
  | update (plan : UpdatePlan)
  | delete (plan : DeletePlan)
  deriving DecidableEq, Repr

/-- The column list of an insert. -/
def insertColumns (columns : List Char) : List (List Char) :=
  ((columns.splitOn ',').map fun c => unquote (trim isWhitespace c)).filter fun c => !c.isEmpty

def parseInsert (sql : List Char) : Option InsertPlan := do
  let inner ← innerCte sql
  let (_, after) ← cutLower "insert into" inner
  let (table, rest) ← cutChar '(' (trimStart isWhitespace after)
  let (columns, _) ← cutChar ')' rest
  let table := lastIdent (trim isWhitespace table)
  let columns := insertColumns columns
  if table.isEmpty || columns.isEmpty then none else some ⟨table, columns⟩

/-- The `WHERE` clause without its keyword, up to a ` returning`. -/
def extractWhere (s : List Char) : Option (List Char) := do
  let (_, rest) ← cutLower " where " s
  let clause := match cutLower " returning" rest with
    | some (clause, _) => clause
    | none => rest
  return stripQualifiers (trim isWhitespace clause)

/-- The columns a `SET` list assigns. -/
def updateColumns (sets : List Char) : List (List Char) :=
  ((sets.splitOn ',').map fun a => lastIdent (trim isWhitespace (a.takeWhile fun c => c != '='))).filter
    fun c => !c.isEmpty

def parseUpdate (sql : List Char) : Option UpdatePlan := do
  let inner ← innerCte sql
  if !startsWith (trimStart isWhitespace (lower inner)) "update " then none else
  let (_, target) ← cutLower "update " inner
  let (table, rest) ← cutLower " set " target
  let table := lastIdent (trim isWhitespace table)
  let (sets, _) ← (cutLower " from (select" rest).or (cutLower " from (" rest)
  let setColumns := updateColumns sets
  if table.isEmpty || setColumns.isEmpty then none else some ⟨table, setColumns, (extractWhere rest).getD []⟩

/-- The table of a delete, up to its `WHERE` or `RETURNING`. -/
def deleteTable (rest : List Char) : List Char :=
  lastIdent (trim isWhitespace (match (cutLower " where " rest).or (cutLower " returning" rest) with
    | some (table, _) => table
    | none => rest))

def parseDelete (sql : List Char) : Option DeletePlan := do
  let inner ← innerCte sql
  if !startsWith (trimStart isWhitespace (lower inner)) "delete from" then none else
  let (_, rest) ← cutLower "delete from" inner
  let table := deleteTable rest
  if table.isEmpty then none else some ⟨table, (extractWhere rest).getD []⟩

def parseWrite (sql : List Char) : Option Write :=
  if !has (lower sql) templateMarker then none
  else ((parseInsert sql).map .insert).or (((parseUpdate sql).map .update).or ((parseDelete sql).map .delete))

/-! ## Reads -/

def isRead (sql : List Char) : Bool :=
  has (lower sql) "pgrst_source" && has (lower sql) "json_agg(_postgrest_t)"

/-- The first bytes of a text; a panic where they end inside a character. -/
def takeBytes : Nat → List Char → Res (List Char)
  | 0, _ | _, [] => .ok []
  | n, c :: s =>
    if n < c.utf8Size then .error .panic else (takeBytes (n - c.utf8Size) s).map (c :: ·)

def lateral : String := "left join lateral"

def rewriteRead (sql : List Char) : Res (Option (List Char)) :=
  match innerCte sql with
  | none => .ok none
  | some inner => do
    let head ← takeBytes 6 (trimStart isWhitespace inner)
    if lower head != "select".toList then return none
    else if has (lower inner) lateral then return none
    else return some (stripQualifiers inner)

/-! ## Embedding reads -/

/-- One embedded relation of a `LEFT JOIN LATERAL` block. -/
structure Embed where
  key : List Char
  relTable : List Char
  relColumns : List (List Char)
  relCol : List Char
  baseCol : List Char
  toMany : Bool
  deriving DecidableEq, Repr

inductive EmbedItem where
  | column (key column : List Char)
  | relation (embed : Embed)
  deriving DecidableEq, Repr

structure EmbedRead where
  baseTable : List Char
  items : List EmbedItem
  baseTail : List Char
  deriving DecidableEq, Repr

/-- The text before a keyword outside parentheses, and what follows it. Outside them the
source looks at every byte, and a byte inside a character panics. -/
def findKwDepth0 (kw : String) (depth : Int) : List Char → Res (Option (List Char × List Char))
  | [] => .ok none
  | c :: s =>
    let onward (depth : Int) := (findKwDepth0 kw depth s).map fun found => found.map fun r => (c :: r.1, r.2)
    if c = '(' then onward (depth + 1)
    else if c = ')' then onward (depth - 1)
    else if depth = 0 ∧ startsWith (lower (c :: s)) kw then .ok (some ([], (c :: s).drop kw.length))
    else if depth = 0 ∧ 1 < c.utf8Size then .error .panic
    else onward depth

/-- Splits on the commas outside parentheses. -/
def splitDepth0Commas (depth : Int) : List Char → List (List Char)
  | [] => [[]]
  | c :: s =>
    let depth' := if c = '(' then depth + 1 else if c = ')' then depth - 1 else depth
    match splitDepth0Commas depth' s with
    | [] => [[c]]
    | part :: parts => if c = ',' ∧ depth = 0 then [] :: part :: parts else (c :: part) :: parts

/-- The first quoted identifier. -/
def firstQuoted (s : List Char) : Option (List Char) := do
  let (_, rest) ← cutChar '"' s
  let (name, _) ← cutChar '"' rest
  return name

def itemExpr (item : List Char) : Res (List Char) :=
  (findKwDepth0 " as " 0 item).map fun found => (found.map (·.1)).getD item

def itemAlias (item : List Char) : Res (Option (List Char)) :=
  (findKwDepth0 " as " 0 item).map fun found => found.map fun r => unquote (trim isWhitespace r.2)

section

-- `char::is_alphanumeric`, which looks letters and digits of every script up
variable (isAlphanumeric : Char → Bool)

/-- The leading identifier chain. -/
def readIdentChain (s : List Char) : List Char :=
  s.takeWhile fun c => isAlphanumeric c || c == '_' || c == '"' || c == '.'

def parseLateralBody (block : List Char) : Option Embed := do
  let (before, _) ← cutLower "from \"public\"." block
  let relTable := lastIdent ((block.drop (before.length + 5)).takeWhile fun c => !isWhitespace c)
  let (_, columns) ← rcutLower "select " before
  let relColumns := ((splitDepth0Commas 0 columns).map fun c => lastIdent (trim isWhitespace c)).filter
    fun c => !c.isEmpty
  if relTable.isEmpty || relColumns.isEmpty then none else
  let (_, cond) ← cutLower " where " block
  let (lhs, rhs) ← cutChar '=' cond
  let relCol := lastIdent (readIdentChain isAlphanumeric (trim isWhitespace lhs))
  let baseCol := lastIdent (readIdentChain isAlphanumeric (trim isWhitespace rhs))
  if relCol.isEmpty || baseCol.isEmpty then none
  else some ⟨[], relTable, relColumns, relCol, baseCol, has (lower block) "json_agg("⟩

/-- The blocks of a region under their aliases; every block takes characters. -/
def parseLateralBlocks : Nat → List Char → List (List Char × Embed)
  | 0, _ => []
  | fuel + 1, region => match cutLower (lateral ++ " (") region with
    | none => []
    | some (_, rest) => match groupEnd 1 rest with
      | none => []
      | some (block, after) =>
        ((parseLateralBody isAlphanumeric block).map fun embed => ((firstQuoted after).getD [], embed)).toList ++
          parseLateralBlocks fuel after

/-- One item of the select list; `none` refuses the template. -/
def embedItem (embeds : List (List Char × Embed)) (item : List Char) : Res (Option EmbedItem) :=
  match firstQuoted item with
  | none => .ok none
  | some first =>
    if first = "public".toList then do
      let column := lastIdent (trim isWhitespace (← itemExpr item))
      let key := (← itemAlias item).getD column
      return if column.isEmpty then none else some (.column key column)
    else match embeds.find? fun e => e.1 = first with
      | none => .ok none
      | some (_, embed) => do
        let key ← itemAlias item
        return key.map fun key => .relation { embed with key := key }

def embedItems (embeds : List (List Char × Embed)) : List (List Char) → Res (Option (List EmbedItem))
  | [] => .ok (some [])
  | item :: items => do
    match ← embedItem embeds item with
    | none => return none
    | some first => return (← embedItems embeds items).map (first :: ·)

/-- The base table, items and tail of an embedding read, from the text inside its CTE. -/
def embedRead (inner : List Char) : Res (Option EmbedRead) :=
  match cutLower "select" inner with
  | none => .ok none
  | some (_, rest) => do
    match ← findKwDepth0 " from " 0 rest with
    | none => return none
    | some (selectList, rest) =>
      let rest := trimStart isWhitespace rest
      let baseTable := lastIdent (rest.takeWhile fun c => !isWhitespace c)
      let region := rest.dropWhile fun c => !isWhitespace c
      let embeds := parseLateralBlocks isAlphanumeric region.length region
      if baseTable.isEmpty || embeds.isEmpty then return none
      else
        let baseTail := match rcutLower " on true" region with
          | some (_, tail) => stripQualifiers (trim isWhitespace tail)
          | none => []
        let items := ((splitDepth0Commas 0 selectList).map (trim isWhitespace)).filter fun i => !i.isEmpty
        match ← embedItems embeds items with
        | some (item :: items) => return some ⟨baseTable, item :: items, baseTail⟩
        | _ => return none

def parseEmbed (sql : List Char) : Res (Option EmbedRead) :=
  match innerCte sql with
  | none => .ok none
  | some inner => if has (lower inner) lateral then embedRead isAlphanumeric inner else .ok none

end

/-! ## Refused catalog queries -/

def UNSUPPORTED_CATALOG_MARKERS : List String := ["pg_catalog.", "information_schema.", " from pg_", " join pg_",
  "::regclass", "::regproc", "::regtype", "pg_get_"]

/-- Lower case, with every run of ASCII white space one space. -/
def normalize (sql : List Char) : List Char := go false (lower sql)
where
  go (prevSpace : Bool) : List Char → List Char
    | [] => []
    | c :: s =>
      if isAsciiWhitespace c then (if prevSpace then [] else [' ']) ++ go true s else c :: go false s

def unsupportedCatalogReason (sql : List Char) : Option String :=
  (UNSUPPORTED_CATALOG_MARKERS.find? fun m => has (normalize sql) m).map fun m =>
    "unsupported catalog query: this engine-server answers only the pgwire introspection subset frozen in the " ++
      "capability matrix (spec 07 addendum); '" ++ trimText m ++ "' is not implemented"

end Twill.Server
