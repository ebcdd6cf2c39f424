/-
Statements on their way to the engine (`introspect.rs`: `is_rls_session_stmt`,
`session_noop_tag`, `intercept`; `capability.rs`: `unsupported_catalog_reason`;
`datapath.rs`: `parse_write`, `parse_embed`, `rewrite_read`; `session.rs`: `inspect`,
`run_simple_one`, `parse`).

The engine recognises a statement by its tokens, the server by its text. A statement
of the session principal is missed when its white space is not the classifier's; a
data statement is taken for something else when its text, literals and comments
included, meets a rule.
-/
import Twill.Lib.Except
import Twill.LexFacts
import Twill.Server.Datapath

namespace Twill.Server

open Text

variable {G : Grammar} {isAlphanumeric : Char → Bool} {user database : String} {pid : Int64} {sql s inner : List Char}

/-! ## Where a parsed text starts -/

/-- A word of the lexer stays at the front of what is looked at. -/
theorem inspected_word {pre s w : List Char} (hpre : ∀ x ∈ pre, isAsciiWhitespace x = true)
    (hword : (s.takeWhile isWordChar).map Char.toLower = w) (hne : w ≠ []) : ∃ t, inspected (pre ++ s) = w ++ t := by
  have hchars : ∀ x ∈ s.takeWhile isWordChar, isWordChar x = true := fun x hx => List.mem_takeWhile_imp hx
  have hsplit : s = s.takeWhile isWordChar ++ s.dropWhile isWordChar := List.takeWhile_append_dropWhile.symm
  obtain ⟨a, d, hlast⟩ : ∃ a d, s.takeWhile isWordChar = a ++ [d] := by
    refine ⟨_, _, (List.dropLast_append_getLast ?_).symm⟩
    rintro hnil
    exact hne (by rw [← hword, hnil, List.map_nil])
  rw [hlast] at hchars
  have hd : isWordChar d = true := hchars d (by simp)
  obtain ⟨u, hinspected, -⟩ := inspected_append (a := a) (d := d) (t := s.dropWhile isWordChar)
    (fun x hx => isWhitespace_of_ascii (hpre x hx))
    (fun x hx => not_isWhitespace_of_isWordChar (hchars x (List.mem_of_mem_head? hx)))
    (not_isWhitespace_of_isWordChar hd) (by rintro rfl; exact absurd hd (by decide))
  refine ⟨lower u, ?_⟩
  rw [hsplit, hlast, List.append_assoc, List.singleton_append, hinspected, ← hword, hlast, lower, lower, List.map_append,
    List.map_append, List.map_cons, List.map_singleton, List.append_assoc, List.singleton_append]

/-- A punctuation mark stays at the front of what is looked at. -/
theorem inspected_mark {pre rest : List Char} {c : Char} (hpre : ∀ x ∈ pre, isAsciiWhitespace x = true)
    (hspace : isWhitespace c = false) (hsemi : c ≠ ';') : ∃ t, inspected (pre ++ c :: rest) = c.toLower :: t := by
  obtain ⟨u, hinspected, -⟩ := inspected_append (a := []) (d := c) (t := rest)
    (fun x hx => isWhitespace_of_ascii (hpre x hx)) (by simpa using hspace) hspace hsemi
  exact ⟨lower u, hinspected⟩

/-- **The front of what is looked at**, for a parsed text: a comment, a quoted keyword or
a keyword. -/
theorem inspected_opening {stmt : Stmt} {n : Nat} (h : parseSql G sql = .ok (stmt, n)) :
    ∃ t, inspected sql = '-' :: t ∨ inspected sql = '"' :: t ∨ inspected sql = '\x60' :: t ∨
      ∃ kw ∈ stmt.keywords, inspected sql = kw.toList ++ t := by
  obtain ⟨kw, hkw, pre, c, rest, rfl, hpre, hc⟩ := opening_of_parseSql h
  rcases hc with rfl | rfl | rfl | hword
  · obtain ⟨t, ht⟩ := inspected_mark (c := '-') hpre (by decide) (by decide)
    exact ⟨t, .inl ht⟩
  · obtain ⟨t, ht⟩ := inspected_mark (c := '"') hpre (by decide) (by decide)
    exact ⟨t, .inr (.inl ht)⟩
  · obtain ⟨t, ht⟩ := inspected_mark (c := '\x60') hpre (by decide) (by decide)
    exact ⟨t, .inr (.inr (.inl ht))⟩
  · obtain ⟨t, ht⟩ := inspected_word hpre hword (stmt.keyword_ne_nil kw hkw)
    exact ⟨t, .inr (.inr (.inr ⟨kw, hkw, ht⟩))⟩

/-! ## The session principal -/

/-- What the classifier can see first of a statement of the principal: a comment, a
quoted keyword, `set` or `reset`. -/
def PrincipalOpening (s : List Char) : Prop :=
  ∃ t, s = '-' :: t ∨ s = '"' :: t ∨ s = '\x60' :: t ∨ s = 's' :: 'e' :: 't' :: t ∨ s = 'r' :: 'e' :: 's' :: 'e' :: 't' :: t

theorem principalOpening_of_parseSql {set : SessionSet} {n : Nat} (h : parseSql G sql = .ok (.setSession set, n)) :
    PrincipalOpening (inspected sql) := by
  obtain ⟨t, ht | ht | ht | ⟨kw, hkw, ht⟩⟩ := inspected_opening h
  · exact ⟨t, .inl ht⟩
  · exact ⟨t, .inr (.inl ht)⟩
  · exact ⟨t, .inr (.inr (.inl ht))⟩
  · simp only [Stmt.keywords, List.mem_cons, List.not_mem_nil, or_false] at hkw
    rcases hkw with rfl | rfl
    · exact ⟨t, .inr (.inr (.inr (.inl ht)))⟩
    · exact ⟨t, .inr (.inr (.inr (.inr ht)))⟩

theorem sessionNoopTag_of_opening (h : PrincipalOpening s) :
    sessionNoopTag s = if startsWith s "set " then some "SET" else none := by
  obtain ⟨t, rfl | rfl | rfl | rfl | rfl⟩ := h
  · rfl
  · rfl
  · rfl
  · unfold sessionNoopTag
    cases hset : startsWith ('s' :: 'e' :: 't' :: t) "set " <;> rfl
  · rfl

/-- No rule but the `SET` prefix and the markers can catch such a statement. -/
theorem quiet_of_opening (h : PrincipalOpening s) :
    isTwillStatsQuery s = false ∧ twillCatalogQuery s = none ∧ strip "show " s = none ∧
      startsWith s "select set_config(" = false ∧ currentSetting (s.filter fun c => !isWhitespace c) = none ∧
      startsWith s "select " = false := by
  obtain ⟨t, rfl | rfl | rfl | rfl | rfl⟩ := h <;> exact ⟨rfl, rfl, rfl, rfl, rfl, rfl⟩

/-- **When a statement of the principal reaches the engine.** The classifier must
recognise it, or it must neither start with `set` and a space nor contain a marker of
the schema cache. -/
theorem principal_passes_iff {set : SessionSet} {n : Nat} (h : parseSql G sql = .ok (.setSession set, n))
    (user database : String) (pid : Int64) : intercept sql user database pid = .pass ↔
      isRlsSessionStmt (inspected sql) = true ∨ (startsWith (inspected sql) "set " = false ∧
        ∀ m ∈ schemaCache.flatMap (·.1), has (inspected sql) m = false) := by
  have hopening := principalOpening_of_parseSql h
  obtain ⟨hstats, hcatalog, hshow, hconfig, hsetting, hselect⟩ := quiet_of_opening hopening
  have hprobe : scalarProbe (inspected sql) user database pid = none := scalarProbe_of_not_select hselect
  rw [intercept_pass, interceptQuery_pass, sessionNoopTag_of_opening hopening]
  simp [hstats, hcatalog, hshow, hconfig, hsetting, hprobe]

theorem principal_passes_setRole :
    intercept "set session  \"Role\" bob;".toList "u" "d" 1 = .pass := by
  have hparse : parseSql Grammar.bare "set session  \"Role\" bob;".toList = .ok (.setSession (.role (some "bob")), 0) := by
    rfl
  exact (principal_passes_iff hparse "u" "d" 1).2 (.inl (by decide))

/-- A tab after `SET LOCAL` hides the role from the classifier, not from the parser. -/
theorem principal_swallowed :
    let sql := "SET LOCAL\tROLE bob".toList
    parseSql Grammar.bare sql = .ok (.setSession (.role (some "bob")), 0) ∧ intercept sql "u" "d" 1 = .tag "SET" :=
  ⟨by rfl, by decide⟩

/-! ## Data statements -/

/-- Data and its definition, queries and transaction control. -/
def isData : Stmt → Bool
  | .ddl _ | .dml _ | .select _ | .begin | .commit | .rollback | .savepoint _ | .releaseSavepoint _ | .rollbackTo _ => true
  | .noop | .setVectorEf _ | .show _ | .explain _ | .setSession _ => false

/-- The session hands the text to the engine as it is. -/
structure HandedUnchanged (isAlphanumeric : Char → Bool) (sql : List Char) (user database : String) (pid : Int64) :
    Prop where
  passes : intercept sql user database pid = .pass
  supported : unsupportedCatalogReason sql = none
  notWrite : parseWrite sql = none
  notEmbed : parseEmbed isAlphanumeric sql = .ok none
  notRead : rewriteRead sql = .ok none


/-- An `INSERT INTO` anywhere, then a table and a parenthesised list of columns. -/
def InsertShape (inner : List Char) : Prop :=
  ∃ before after table rest columns tail, cutLower "insert into" inner = some (before, after) ∧
    cutChar '(' (trimStart isWhitespace after) = some (table, rest) ∧ cutChar ')' rest = some (columns, tail) ∧
    lastIdent (trim isWhitespace table) ≠ [] ∧ insertColumns columns ≠ []

/-- An `UPDATE` at the start, then a table, a `SET` and, after it, a `FROM` with a parenthesis. -/
def UpdateShape (inner : List Char) : Prop :=
  startsWith (trimStart isWhitespace (lower inner)) "update " = true ∧
    ∃ before target table rest sets tail, cutLower "update " inner = some (before, target) ∧
      cutLower " set " target = some (table, rest) ∧
      (cutLower " from (select" rest).or (cutLower " from (" rest) = some (sets, tail) ∧
      lastIdent (trim isWhitespace table) ≠ [] ∧ updateColumns sets ≠ []

/-- A `DELETE FROM` at the start, then a table. -/
def DeleteShape (inner : List Char) : Prop :=
  startsWith (trimStart isWhitespace (lower inner)) "delete from" = true ∧
    ∃ before rest, cutLower "delete from" inner = some (before, rest) ∧ deleteTable rest ≠ []

/-- A `SELECT` at the start, up to the bytes that decide it, without a lateral join. -/
def ReadShape (inner : List Char) : Prop := match takeBytes 6 (trimStart isWhitespace inner) with
  | .error _ => True
  | .ok head => lower head = "select".toList ∧ has (lower inner) lateral = false

/-- A lateral join in an embedding read. -/
def EmbedShape (isAlphanumeric : Char → Bool) (inner : List Char) : Prop :=
  has (lower inner) lateral = true ∧ embedRead isAlphanumeric inner ≠ .ok none

theorem exists_parseInsert : (∃ plan, parseInsert sql = some plan) ↔
    ∃ inner, innerCte sql = some inner ∧ InsertShape inner := by
  constructor
  · rintro ⟨plan, h⟩
    simp only [parseInsert, Option.bind_eq_bind, Option.bind_eq_some_iff] at h
    obtain ⟨inner, hinner, ⟨before, after⟩, hinsert, ⟨table, rest⟩, htable, ⟨columns, tail⟩, hcolumns, h⟩ := h
    split at h
    · cases h
    · rename_i hne
      simp only [Bool.or_eq_true, List.isEmpty_iff, not_or] at hne
      exact ⟨inner, hinner, before, after, table, rest, columns, tail, hinsert, htable, hcolumns, hne⟩
  · rintro ⟨inner, hinner, before, after, table, rest, columns, tail, hinsert, htable, hcolumns, hne⟩
    simp only [parseInsert, Option.bind_eq_bind, hinner, hinsert, htable, hcolumns, Option.bind_some]
    exact ⟨_, if_neg (by simpa using hne)⟩

theorem exists_parseUpdate : (∃ plan, parseUpdate sql = some plan) ↔
    ∃ inner, innerCte sql = some inner ∧ UpdateShape inner := by
  constructor
  · rintro ⟨plan, h⟩
    simp only [parseUpdate, Option.bind_eq_bind, Option.bind_eq_some_iff] at h
    obtain ⟨inner, hinner, h⟩ := h
    split at h
    · cases h
    · rename_i hstarts
      simp only [Option.bind_eq_some_iff] at h
      obtain ⟨⟨before, target⟩, htarget, ⟨table, rest⟩, htable, ⟨sets, tail⟩, hsets, h⟩ := h
      split at h
      · cases h
      · rename_i hne
        simp only [Bool.or_eq_true, List.isEmpty_iff, not_or] at hne
        exact ⟨inner, hinner, by simpa using hstarts, before, target, table, rest, sets, tail, htarget, htable, hsets,
          hne⟩
  · rintro ⟨inner, hinner, hstarts, before, target, table, rest, sets, tail, htarget, htable, hsets, hne⟩
    simp only [parseUpdate, Option.bind_eq_bind, hinner, hstarts, htarget, htable, hsets, Option.bind_some,
      Bool.not_true, Bool.false_eq_true, if_false]
    exact ⟨_, if_neg (by simpa using hne)⟩

theorem exists_parseDelete : (∃ plan, parseDelete sql = some plan) ↔
    ∃ inner, innerCte sql = some inner ∧ DeleteShape inner := by
  constructor
  · rintro ⟨plan, h⟩
    simp only [parseDelete, Option.bind_eq_bind, Option.bind_eq_some_iff] at h
    obtain ⟨inner, hinner, h⟩ := h
    split at h
    · cases h
    · rename_i hstarts
      simp only [Option.bind_eq_some_iff] at h
      obtain ⟨⟨before, rest⟩, hrest, h⟩ := h
      split at h
      · cases h
      · rename_i hname
        exact ⟨inner, hinner, by simpa using hstarts, before, rest, hrest, by simpa using hname⟩
  · rintro ⟨inner, hinner, hstarts, before, rest, hrest, hname⟩
    simp only [parseDelete, Option.bind_eq_bind, hinner, hstarts, hrest, Option.bind_some, Bool.not_true,
      Bool.false_eq_true, if_false]
    exact ⟨_, if_neg (by simpa using hname)⟩

/-- What is inside the CTE is found behind its marker. -/
theorem has_of_innerCte (h : innerCte sql = some inner) : has (lower sql) templateMarker = true := by
  simp only [innerCte, Option.bind_eq_bind, Option.bind_eq_some_iff, cutLower] at h
  obtain ⟨r, hcut, -⟩ := h
  obtain ⟨r', hsplit, -⟩ := Option.map_eq_some_iff.1 hcut
  exact Text.contains_of_splitAt hsplit

theorem parseWrite_eq_none : parseWrite sql = none ↔
    ∀ inner, innerCte sql = some inner → ¬ InsertShape inner ∧ ¬ UpdateShape inner ∧ ¬ DeleteShape inner := by
  have hnone {α : Type} {o : Option α} {shape : List Char → Prop}
      (h : (∃ plan, o = some plan) ↔ ∃ inner, innerCte sql = some inner ∧ shape inner) :
      o = none ↔ ∀ inner, innerCte sql = some inner → ¬ shape inner := by
    rw [← not_iff_not, ← ne_eq, Option.ne_none_iff_exists', h]
    simp
  have hparts : parseWrite sql = none ↔ parseInsert sql = none ∧ parseUpdate sql = none ∧ parseDelete sql = none := by
    unfold parseWrite
    cases hcte : innerCte sql with
    | none =>
      have hinsert := (hnone exists_parseInsert).2 (by simp [hcte])
      have hupdate := (hnone exists_parseUpdate).2 (by simp [hcte])
      have hdelete := (hnone exists_parseDelete).2 (by simp [hcte])
      simp [hinsert, hupdate, hdelete]
    | some inner => simp [has_of_innerCte hcte]
  rw [hparts, hnone exists_parseInsert, hnone exists_parseUpdate, hnone exists_parseDelete]
  exact ⟨fun h inner hinner => ⟨h.1 inner hinner, h.2.1 inner hinner, h.2.2 inner hinner⟩,
    fun h => ⟨fun inner hinner => (h inner hinner).1, fun inner hinner => (h inner hinner).2.1,
      fun inner hinner => (h inner hinner).2.2⟩⟩

theorem rewriteRead_eq_none : rewriteRead sql = .ok none ↔ ∀ inner, innerCte sql = some inner → ¬ ReadShape inner := by
  unfold rewriteRead
  cases hcte : innerCte sql with
  | none => simp
  | some inner =>
    simp only [Option.some.injEq, forall_eq', ReadShape]
    cases hhead : takeBytes 6 (trimStart isWhitespace inner) with
    | error e => simp
    | ok head =>
      rw [Except.ok_bind]
      by_cases hselect : lower head = "select".toList
      · cases hlateral : has (lower inner) lateral <;> simp [hselect]
      · simp [hselect]

theorem parseEmbed_eq_none : parseEmbed isAlphanumeric sql = .ok none ↔
    ∀ inner, innerCte sql = some inner → ¬ EmbedShape isAlphanumeric inner := by
  unfold parseEmbed
  cases hinner : innerCte sql with
  | none => simp
  | some inner => cases hlateral : has (lower inner) lateral <;> simp [EmbedShape, hlateral]

/-- The texts of the scalar probes. -/
def scalarProbes : List String := ["select version()", "select current_schema()", "select current_schema",
  "select current_database()", "select current_database", "select current_user", "select user",
  "select current_user()", "select pg_backend_pid()"]

theorem scalarProbe_eq_none : scalarProbe s user database pid = none ↔ ∀ p ∈ scalarProbes, String.ofList s ≠ p := by
  unfold scalarProbe
  split
  case h_10 => simp_all [scalarProbes]
  all_goals
    rename_i h
    simp [scalarProbes, h]

theorem currentSetting_eq_none : currentSetting s = none ↔
    ∀ rest, strip "selectcurrent_setting('" s = some rest → '\'' ∉ rest := by
  unfold currentSetting
  split
  case isTrue hversion =>
    obtain ⟨rest, rfl⟩ := List.isPrefixOf_iff_prefix.1 hversion
    simp only [reduceCtorEq, false_iff, not_forall]
    exact ⟨_, rfl, by simp⟩
  case isFalse =>
    cases hstrip : strip "selectcurrent_setting('" s with
    | none => simp
    | some rest => by_cases hquote : '\'' ∈ rest <;> simp [hquote]

def dataKeywords : List String := ["create", "drop", "alter", "insert", "update", "delete", "select", "with", "begin",
  "start", "commit", "end", "rollback", "abort", "savepoint", "release"]

theorem keywords_of_isData {stmt : Stmt} (hdata : isData stmt = true) : ∀ kw ∈ stmt.keywords, kw ∈ dataKeywords := by
  cases stmt <;> first | (simp only [Stmt.keywords]; decide) | cases hdata

/-- What the classifier can see first of a data statement: a comment, a quoted keyword,
or a keyword of one. -/
def DataOpening (s : List Char) : Prop := ∃ t, s = '-' :: t ∨ s = '"' :: t ∨ s = '\x60' :: t ∨
  ∃ kw ∈ dataKeywords, s = kw.toList ++ t

theorem dataOpening_of_parseSql {stmt : Stmt} {n : Nat} (h : parseSql G sql = .ok (stmt, n)) (hdata : isData stmt = true) :
    DataOpening (inspected sql) := by
  obtain ⟨t, ht | ht | ht | ⟨kw, hkw, ht⟩⟩ := inspected_opening h
  · exact ⟨t, .inl ht⟩
  · exact ⟨t, .inr (.inl ht)⟩
  · exact ⟨t, .inr (.inr (.inl ht))⟩
  · exact ⟨t, .inr (.inr (.inr ⟨kw, keywords_of_isData hdata kw hkw, ht⟩))⟩

/-- Of the session statements only a `BEGIN READ ONLY` can be taken for one. -/
theorem quiet_of_dataOpening (h : DataOpening s) : isRlsSessionStmt s = false ∧
    sessionNoopTag s = (if s == "begin read only".toList then some "SET" else none) ∧ strip "show " s = none := by
  obtain ⟨t, rfl | rfl | rfl | ⟨kw, hkw, rfl⟩⟩ := h
  · exact ⟨rfl, rfl, rfl⟩
  · exact ⟨rfl, rfl, rfl⟩
  · exact ⟨rfl, rfl, rfl⟩
  · simp only [dataKeywords, List.mem_cons, List.not_mem_nil, or_false] at hkw
    have hnoop {u : List Char} (h₁ : startsWith u "set " = false) (h₂ : startsWith u "discard " = false)
        (h₃ : startsWith u "listen " = false) (h₄ : startsWith u "unlisten " = false) :
        sessionNoopTag u = if u == "begin read only".toList then some "SET" else none := by
      unfold sessionNoopTag
      rw [h₁, h₂, h₃, h₄]
      simp only [Bool.false_or, Bool.false_eq_true, if_false]
    rcases hkw with rfl | rfl | rfl | rfl | rfl | rfl | rfl | rfl | rfl | rfl | rfl | rfl | rfl | rfl | rfl | rfl <;>
      exact ⟨rfl, hnoop rfl rfl rfl rfl, rfl⟩

/-- No rule of the server meets the text. -/
structure Unclaimed (isAlphanumeric : Char → Bool) (sql : List Char) : Prop where
  notBegin : inspected sql ≠ "begin read only".toList
  notStats : isTwillStatsQuery (inspected sql) = false
  notCatalog : twillCatalogQuery (inspected sql) = none
  notConfig : startsWith (inspected sql) "select set_config(" = false
  notCached : ∀ m ∈ schemaCache.flatMap (·.1), has (inspected sql) m = false
  notSetting : ∀ rest, strip "selectcurrent_setting('" ((inspected sql).filter fun c => !isWhitespace c) = some rest →
    '\'' ∉ rest
  notProbe : ∀ p ∈ scalarProbes, String.ofList (inspected sql) ≠ p
  notRefused : ∀ m ∈ UNSUPPORTED_CATALOG_MARKERS, has (normalize sql) m = false
  notTemplate : ∀ inner, innerCte sql = some inner → ¬ InsertShape inner ∧ ¬ UpdateShape inner ∧ ¬ DeleteShape inner ∧
    ¬ EmbedShape isAlphanumeric inner ∧ ¬ ReadShape inner

theorem unsupportedCatalogReason_eq_none : unsupportedCatalogReason sql = none ↔
    ∀ m ∈ UNSUPPORTED_CATALOG_MARKERS, has (normalize sql) m = false := by
  rw [unsupportedCatalogReason, Option.map_eq_none_iff, List.find?_eq_none]
  simp only [Bool.not_eq_true]

theorem tagIf_eq_none {t : List Char} {tag : String} : (if s == t then some tag else none) = none ↔ s ≠ t := by
  by_cases h : s = t <;> simp [h]

theorem passes_of_dataOpening (h : DataOpening (inspected sql)) : intercept sql user database pid = .pass ↔
    inspected sql ≠ "begin read only".toList ∧ isTwillStatsQuery (inspected sql) = false ∧
      twillCatalogQuery (inspected sql) = none ∧ startsWith (inspected sql) "select set_config(" = false ∧
      (∀ m ∈ schemaCache.flatMap (·.1), has (inspected sql) m = false) ∧
      (∀ rest, strip "selectcurrent_setting('" ((inspected sql).filter fun c => !isWhitespace c) = some rest →
        '\'' ∉ rest) ∧
      ∀ p ∈ scalarProbes, String.ofList (inspected sql) ≠ p := by
  obtain ⟨hrls, htag, hshow⟩ := quiet_of_dataOpening h
  rw [intercept_pass, interceptQuery_pass, hrls, htag, hshow, tagIf_eq_none, scalarProbe_eq_none,
    currentSetting_eq_none]
  simp only [Bool.false_eq_true, false_or, true_and]

/-- **When a data statement reaches the engine as it is.** Exactly when its text meets no
rule of the server. -/
theorem data_handed_iff {stmt : Stmt} {n : Nat} (h : parseSql G sql = .ok (stmt, n)) (hdata : isData stmt = true)
    (isAlphanumeric : Char → Bool) (user database : String) (pid : Int64) :
    HandedUnchanged isAlphanumeric sql user database pid ↔ Unclaimed isAlphanumeric sql := by
  have hpasses : intercept sql user database pid = .pass ↔ _ :=
    passes_of_dataOpening (dataOpening_of_parseSql h hdata)
  constructor
  · rintro ⟨hpass, hsupported, hwrite, hembed, hread⟩
    obtain ⟨hbegin, hstats, hcatalog, hconfig, hcached, hsetting, hprobe⟩ := hpasses.1 hpass
    rw [unsupportedCatalogReason_eq_none] at hsupported
    rw [parseWrite_eq_none] at hwrite
    rw [parseEmbed_eq_none] at hembed
    rw [rewriteRead_eq_none] at hread
    refine ⟨hbegin, hstats, hcatalog, hconfig, hcached, hsetting, hprobe, hsupported, fun inner hinner => ?_⟩
    obtain ⟨hinsert, hupdate, hdelete⟩ := hwrite inner hinner
    exact ⟨hinsert, hupdate, hdelete, hembed inner hinner, hread inner hinner⟩
  · rintro ⟨hbegin, hstats, hcatalog, hconfig, hcached, hsetting, hprobe, hrefused, htemplate⟩
    refine ⟨hpasses.2 ⟨hbegin, hstats, hcatalog, hconfig, hcached, hsetting, hprobe⟩,
      unsupportedCatalogReason_eq_none.2 hrefused, parseWrite_eq_none.2 fun inner hinner => ?_,
      parseEmbed_eq_none.2 fun inner hinner => ?_, rewriteRead_eq_none.2 fun inner hinner => ?_⟩
    · obtain ⟨hinsert, hupdate, hdelete, -, -⟩ := htemplate inner hinner
      exact ⟨hinsert, hupdate, hdelete⟩
    · exact (htemplate inner hinner).2.2.2.1
    · exact (htemplate inner hinner).2.2.2.2

theorem data_handed_rollbackTo :
    HandedUnchanged Char.isAlphanum "ROLLBACK TO pg_size -- from here".toList "u" "d" 1 := by
  have hparse : parseSql Grammar.bare "ROLLBACK TO pg_size -- from here".toList = .ok (.rollbackTo "pg_size", 0) := by rfl
  have hcte : innerCte "ROLLBACK TO pg_size -- from here".toList = none := by decide
  have hsetting : strip "selectcurrent_setting('" ((inspected "ROLLBACK TO pg_size -- from here".toList).filter
      fun c => !isWhitespace c) = none := by decide
  refine (data_handed_iff hparse rfl Char.isAlphanum "u" "d" 1).2
    ⟨by decide, by decide, by decide, by decide, by decide, fun rest h => ?_, by decide, by decide, fun inner h => ?_⟩
  · rw [hsetting] at h
    cases h
  · rw [hcte] at h
    cases h

/-- A comment turns a `COMMIT` into an empty answer to a query of the schema cache. -/
theorem data_swallowed :
    let sql := "COMMIT -- pg_cast".toList
    parseSql Grammar.bare sql = .ok (.commit, 0) ∧
      intercept sql "u" "d" 1 = emptyRows ["castsource", "casttarget", "castfunc"] ∧
      ¬ HandedUnchanged Char.isAlphanum sql "u" "d" 1 := by
  intro sql
  have hintercept : intercept sql "u" "d" 1 = emptyRows ["castsource", "casttarget", "castfunc"] := by decide
  exact ⟨by rfl, hintercept, fun h => absurd (hintercept.symm.trans h.passes) (by decide)⟩

end Twill.Server
