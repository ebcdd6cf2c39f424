/-
What the server answers itself (`introspect.rs`): the classifier of statements and
its canned results. What the session reflects from the live engine is only named
here.
-/
import Twill.Value
import Twill.Lib.Text

namespace Twill.Server

open Text (trim trimStart trimEnd contains)

def SERVER_VERSION : String := "15.0"

def SERVER_VERSION_NUM : String := "150000"

inductive CatalogKind where
  | columns
  | relationships
  deriving DecidableEq, Repr

inductive ReflectKind where
  | tables
  | relationships
  deriving DecidableEq, Repr

/-- The outcome of inspecting a statement before it reaches the engine. -/
inductive Canned where
  | rows (columns : List String) (oids : List Int32) (rows : List Row) (tag : String)
  | tag (tag : String)
  | reflect (kind : ReflectKind)
  | stats
  | catalog (kind : CatalogKind)
  | pass
  deriving DecidableEq, Repr

/-- `starts_with` and `contains` of a literal. -/
def startsWith (s : List Char) (pat : String) : Bool := pat.toList.isPrefixOf s

def has (s : List Char) (pat : String) : Bool := contains s pat.toList

/-- `strip_prefix` of a literal. -/
def strip (pat : String) (s : List Char) : Option (List Char) := Text.stripPrefix pat.toList s

/-- `to_ascii_lowercase`. -/
def lower (s : List Char) : List Char := s.map Char.toLower

def settingValue (name : List Char) : String :=
  match String.ofList name with
  | "server_version" => SERVER_VERSION
  | "server_version_num" => SERVER_VERSION_NUM
  | "transaction isolation level" | "default_transaction_isolation" | "transaction_isolation" => "read committed"
  | "transaction_read_only" => "off"
  | "server_encoding" | "client_encoding" => "UTF8"
  | "standard_conforming_strings" => "on"
  | "search_path" => "\"$user\", public"
  | "max_index_keys" => "32"
  | "integer_datetimes" => "on"
  | "datestyle" => "ISO, MDY"
  | "timezone" => "UTC"
  | _ => ""

def oneRow (col value : String) : Canned := .rows [col] [] [[.text value]] "SELECT 1"

def emptyRows (columns : List String) : Canned := .rows columns [] [] "SELECT 0"

/-! ## Session statements -/

/-- The names of the principal's parts. -/
def principalNames : List String := ["role", "twill.jwt.claims", "request.jwt.claims", "twill.rls.bypass"]

/-- What may follow such a name. -/
def endsName (after : List Char) : Bool := match after with
  | [] => true
  | c :: _ => c == '"' || c == ' ' || c == '\t' || c == '=' || c == ';'

/-- Whether `s`, trimmed and in lower case, sets or resets the principal. -/
def isRlsSessionStmt (s : List Char) : Bool :=
  match (strip "set " s).or (strip "reset " s) with
  | none => false
  | some body =>
    let body := trimStart isWhitespace body
    let body := (((strip "local " body).or (strip "session " body)).map (trimStart isWhitespace)).getD body
    let body := trimStart (· == '"') body
    principalNames.any fun name => (strip name body).any endsName

def sessionNoopTag (s : List Char) : Option String :=
  if startsWith s "set " || s == "begin read only".toList then some "SET"
  else if startsWith s "discard " then some "DISCARD ALL"
  else if startsWith s "listen " then some "LISTEN"
  else if startsWith s "unlisten " then some "UNLISTEN"
  else none

/-! ## The observability surfaces -/

def statsQueries : List String := ["show twill.stats", "show twill_stats", "select * from twill.stats",
  "select * from twill_stats", "table twill.stats", "table twill_stats"]

def isTwillStatsQuery (s : List Char) : Bool := statsQueries.any fun q => s == q.toList

def twillCatalogQuery (s : List Char) : Option CatalogKind :=
  let one (name : String) : Bool := ["show ", "table ", "select * from "].any fun pat =>
    (strip pat s).any fun n => trim isWhitespace n == name.toList
  if one "twill.catalog" || one "twill_catalog" then some .columns
  else if one "twill.relationships" || one "twill_relationships" then some .relationships
  else none

/-! ## The schema cache -/

/-- The marker substrings of the schema-cache queries and their answers, in the order
they are looked for. -/
def schemaCache : List (List String × Canned) := [
  (["pg_relation_is_updatable"], .reflect .tables),
  (["pg_timezone_names"], emptyRows ["name"]),
  (["pg_cast", "castsource"], emptyRows ["castsource", "casttarget", "castfunc"]),
  (["computed_rels", "all_relations"], emptyRows ["name", "rel_table_schema", "rel_table_name", "rel_ftable_schema",
    "rel_ftable_name", "single_row", "is_self"]),
  (["rettype_is_setof", "proargmodes"], emptyRows ["proc_schema", "proc_name", "proc_description", "args", "schema",
    "name", "rettype_is_setof", "rettype_is_composite", "rettype_is_composite_alias", "provolatile", "hasvariadic",
    "transaction_isolation_level", "kvs"]),
  (["pks_uniques_cols"], .reflect .relationships),
  (["pks_fks", "column_dependencies"], emptyRows ["table_schema", "table_name", "view_schema", "view_name",
    "constraint_name", "constraint_type", "column_dependencies"]),
  (["pg_db_role_setting"], emptyRows ["key", "value"]),
  (["pg_auth_members"], emptyRows ["rolname", "iso_lvl", "role_settings"])]

def schemaCacheAnswer (s : List Char) : Option Canned :=
  (schemaCache.find? fun e => e.1.any (has s)).map (·.2)

/-! ## Probes -/

/-- How often a text occurs, without overlaps (`matches(..).count()`). -/
def countMatches (pat : List Char) : Nat → List Char → Nat
  | 0, _ | _, [] => 0
  | fuel + 1, c :: s =>
    if pat.isPrefixOf (c :: s) then 1 + countMatches pat fuel ((c :: s).drop pat.length) else countMatches pat fuel s

def fullVersion : String := "PostgreSQL " ++ SERVER_VERSION ++ " (twill-db engine-server)"

/-- The `current_setting` probes, on the text without white space. -/
def currentSetting (compact : List Char) : Option Canned :=
  if startsWith compact ("selectcurrent_setting('server_version_num')::integer," ++
      "current_setting('server_version'),version()") then
    some (.rows ["server_version_num", "server_version", "version"] []
      [[.int 150000, .text SERVER_VERSION, .text fullVersion]] "SELECT 1")
  else match strip "selectcurrent_setting('" compact with
    | some rest =>
      if rest.contains '\'' then some (oneRow "current_setting" (settingValue (rest.takeWhile fun c => c != '\'')))
      else none
    | none => none

/-- The scalar functions clients probe on connect. -/
def scalarProbe (s : List Char) (user database : String) (pid : Int64) : Option Canned :=
  match String.ofList s with
  | "select version()" => some (oneRow "version" fullVersion)
  | "select current_schema()" | "select current_schema" => some (oneRow "current_schema" "public")
  | "select current_database()" | "select current_database" => some (oneRow "current_database" database)
  | "select current_user" | "select user" | "select current_user()" => some (oneRow "current_user" user)
  | "select pg_backend_pid()" => some (.rows ["pg_backend_pid"] [] [[.int pid]] "SELECT 1")
  | _ => none

/-! ## The classifier -/

/-- The text the classifier looks at. -/
def inspected (sql : List Char) : List Char :=
  lower (trim isWhitespace (trimEnd (· == ';') (trim isWhitespace sql)))

/-- The rules after the session statements and the observability surfaces. -/
def interceptQuery (s : List Char) (user database : String) (pid : Int64) : Canned :=
  match strip "show " s with
  | some rest =>
    let name := trim isWhitespace rest
    oneRow (String.ofList name) (settingValue name)
  | none =>
    if startsWith s "select set_config(" then
      let n := max (countMatches "set_config(".toList s.length s) 1
      .rows (List.replicate n "set_config") [] [List.replicate n (.text "")] "SELECT 1"
    else match schemaCacheAnswer s with
      | some canned => canned
      | none => match currentSetting (s.filter fun c => !isWhitespace c) with
        | some canned => canned
        | none => (scalarProbe s user database pid).getD .pass

/-- `intercept`, in the process `pid`. -/
def intercept (sql : List Char) (user database : String) (pid : Int64) : Canned :=
  let s := inspected sql
  if isRlsSessionStmt s then .pass
  else match sessionNoopTag s with
    | some tag => .tag tag
    | none =>
      if isTwillStatsQuery s then .stats
      else match twillCatalogQuery s with
        | some kind => .catalog kind
        | none => interceptQuery s user database pid

example : intercept "select  current_setting( 'server_version_num' , true )".toList "u" "d" 1 =
    oneRow "current_setting" SERVER_VERSION_NUM := by decide

/-! ## What is looked at -/

/-- White space before a text and what follows its first word do not reach the word. -/
theorem inspected_append {pre a t : List Char} {d : Char} (hpre : ∀ x ∈ pre, isWhitespace x = true)
    (ha : ∀ x ∈ (a ++ [d]).head?, isWhitespace x = false) (hd : isWhitespace d = false) (hsemi : d ≠ ';') :
    ∃ u, inspected (pre ++ (a ++ d :: t)) = lower (a ++ d :: u) ∧ u <+: t := by
  have hstart (u : List Char) : trimStart isWhitespace (a ++ d :: u) = a ++ d :: u := by
    cases a with
    | nil => exact List.dropWhile_cons_of_neg (by simp [hd])
    | cons b a => exact List.dropWhile_cons_of_neg (by simp [ha b (by simp)])
  obtain ⟨u₁, h₁, hu₁⟩ := Text.trimEnd_append hd a t
  obtain ⟨u₂, h₂, hu₂⟩ := Text.trimEnd_append (p := (· == ';')) (by simpa using hsemi) a u₁
  obtain ⟨u₃, h₃, hu₃⟩ := Text.trimEnd_append hd a u₂
  have htrim : trim isWhitespace (pre ++ (a ++ d :: t)) = a ++ d :: u₁ := by
    rw [trim, trimStart, List.dropWhile_append_of_pos hpre, ← h₁]
    exact congrArg (trimEnd isWhitespace) (hstart t)
  refine ⟨u₃, ?_, hu₃.trans (hu₂.trans hu₁)⟩
  rw [inspected, htrim, h₂, trim, hstart, h₃]

/-! ## What passes -/

variable {s : List Char} {user database : String} {pid : Int64}

theorem schemaCache_not_pass : ∀ e ∈ schemaCache, e.2 ≠ .pass := by decide

theorem schemaCacheAnswer_eq_none : schemaCacheAnswer s = none ↔ ∀ m ∈ schemaCache.flatMap (·.1), has s m = false := by
  rw [schemaCacheAnswer, Option.map_eq_none_iff, List.find?_eq_none]
  simp only [List.any_eq_true, not_exists, not_and, Bool.not_eq_true, List.mem_flatMap]
  exact ⟨fun h m ⟨e, he, hm⟩ => h e he m hm, fun h e he m hm => h m ⟨e, he, hm⟩⟩

theorem schemaCacheAnswer_not_pass {canned : Canned} (h : schemaCacheAnswer s = some canned) : canned ≠ .pass := by
  obtain ⟨e, hfind, rfl⟩ := Option.map_eq_some_iff.1 h
  exact schemaCache_not_pass e (List.mem_of_find?_eq_some hfind)

theorem currentSetting_not_pass {canned : Canned} (h : currentSetting s = some canned) : canned ≠ .pass := by
  unfold currentSetting at h
  split at h
  · rw [← Option.some.inj h]
    simp
  · split at h
    · split at h
      · rw [← Option.some.inj h]
        simp [oneRow]
      · cases h
    · cases h

theorem scalarProbe_not_pass {canned : Canned} (h : scalarProbe s user database pid = some canned) :
    canned ≠ .pass := by
  unfold scalarProbe at h
  split at h <;> simp only [Option.some.injEq, reduceCtorEq] at h <;> rw [← h] <;> simp [oneRow]

/-- The probes are queries. -/
theorem scalarProbe_of_not_select (h : startsWith s "select " = false) : scalarProbe s user database pid = none := by
  have hne (text : String) (hselect : startsWith text.toList "select " = true) : String.ofList s ≠ text := by
    rintro rfl
    rw [String.toList_ofList, h] at hselect
    cases hselect
  unfold scalarProbe
  split
  case h_10 => rfl
  all_goals exact absurd (by assumption) (hne _ rfl)

theorem interceptQuery_pass : interceptQuery s user database pid = .pass ↔
    strip "show " s = none ∧ startsWith s "select set_config(" = false ∧
      (∀ m ∈ schemaCache.flatMap (·.1), has s m = false) ∧ currentSetting (s.filter fun c => !isWhitespace c) = none ∧
      scalarProbe s user database pid = none := by
  unfold interceptQuery
  rw [← schemaCacheAnswer_eq_none]
  cases hshow : strip "show " s with
  | some rest => simp [oneRow]
  | none =>
    cases hset : startsWith s "select set_config(" with
    | true => simp
    | false =>
      cases hcache : schemaCacheAnswer s with
      | some canned => simp [schemaCacheAnswer_not_pass hcache]
      | none =>
        cases hsetting : currentSetting (s.filter fun c => !isWhitespace c) with
        | some canned => simp [currentSetting_not_pass hsetting]
        | none =>
          cases hprobe : scalarProbe s user database pid with
          | some canned => simp [scalarProbe_not_pass hprobe]
          | none => simp

/-- **Every rule must let a statement pass**, unless it sets the principal. -/
theorem intercept_pass {sql : List Char} : intercept sql user database pid = .pass ↔
    isRlsSessionStmt (inspected sql) = true ∨ (sessionNoopTag (inspected sql) = none ∧
      isTwillStatsQuery (inspected sql) = false ∧ twillCatalogQuery (inspected sql) = none ∧
      interceptQuery (inspected sql) user database pid = .pass) := by
  unfold intercept
  dsimp only
  cases hrls : isRlsSessionStmt (inspected sql) with
  | true => simp
  | false =>
    cases htag : sessionNoopTag (inspected sql) with
    | some tag => simp
    | none =>
      cases hstats : isTwillStatsQuery (inspected sql) with
      | true => simp
      | false =>
        cases hcatalog : twillCatalogQuery (inspected sql) with
        | some kind => simp
        | none => simp

end Twill.Server
