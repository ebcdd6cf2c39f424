/-
Where the first keyword of a parsed text stands, and which statements a keyword
starts.
-/
import Twill.Lib.Except
import Twill.Statement

namespace Twill

theorem isWhitespace_of_ascii {c : Char} (h : isAsciiWhitespace c = true) : isWhitespace c = true := by
  simp only [isAsciiWhitespace, Bool.or_eq_true, beq_iff_eq] at h
  rcases h with (((rfl | rfl) | rfl) | rfl) | rfl <;> decide

theorem not_isWhitespace_of_isWordChar {c : Char} (h : isWordChar c = true) : isWhitespace c = false := by
  simp only [isWordChar, Char.isAlphanum, Char.isAlpha, Char.isUpper, Char.isLower, Char.isDigit, Bool.or_eq_true,
    beq_iff_eq, decide_eq_true_eq, Bool.and_eq_true] at h
  have hn : 48 ≤ c.toNat ∧ c.toNat ≤ 122 := by
    rcases h with rfl | (⟨h₁, h₂⟩ | ⟨h₁, h₂⟩) | ⟨h₁, h₂⟩
    · decide
    all_goals
      have h₁ : _ ≤ c.toNat := UInt32.le_iff_toNat_le.1 h₁
      have h₂ : c.toNat ≤ _ := UInt32.le_iff_toNat_le.1 h₂
      simp at h₁ h₂
      omega
  unfold isWhitespace
  simp
  omega

theorem map_toLower_of_eqIgnoreAsciiCase {w kw : List Char} (hkw : kw.map Char.toLower = kw)
    (h : eqIgnoreAsciiCase (String.ofList w) (String.ofList kw) = true) : w.map Char.toLower = kw := by
  have heq : String.ofList (w.map Char.toLower) = String.ofList (kw.map Char.toLower) := by
    simpa [eqIgnoreAsciiCase, toAsciiLowercase] using h
  have := congrArg String.toList heq
  simpa [hkw] using this

theorem lexNumber_not_word {s : List Char} {r : Tok × List Char} (h : lexNumber s = .ok r) (w : String) :
    r.1 ≠ .word w := by
  unfold lexNumber at h
  dsimp only at h
  split at h <;> split_ifs at h <;> simp only [Except.ok.injEq] at h <;> simp [← h]

theorem lexBang_not_word {s : List Char} {r : Tok × List Char} (h : lexBang s = .ok r) (w : String) : r.1 ≠ .word w := by
  unfold lexBang at h
  split at h <;> simp at h
  simp [← h]

theorem lexPipe_not_word {s : List Char} {r : Tok × List Char} (h : lexPipe s = .ok r) (w : String) : r.1 ≠ .word w := by
  unfold lexPipe at h
  split at h <;> simp at h
  simp [← h]

theorem lexColon_not_word {s : List Char} {r : Tok × List Char} (h : lexColon s = .ok r) (w : String) :
    r.1 ≠ .word w := by
  unfold lexColon at h
  split at h
  · simp [← Except.ok.inj h]
  · dsimp only at h
    split at h
    · simp at h
    · simp [← Except.ok.inj h]

theorem lexNumparam_not_word {s : List Char} {r : Tok × List Char} (h : lexNumparam s = .ok r) (w : String) :
    r.1 ≠ .word w := by
  unfold lexNumparam at h
  dsimp only at h
  split at h
  · simp at h
  · split at h
    · simp [← Except.ok.inj h]
    · simp at h

theorem first_of_lexLonger {c : Char} {rest : List Char} {r : Tok × List Char} {w : String}
    (h : lexLonger c rest = .ok r) (hword : r.1 = .word w) :
    c = '"' ∨ c = '\x60' ∨ String.ofList ((c :: rest).takeWhile isWordChar) = w := by
  unfold lexLonger at h
  by_cases hlt : c = '<'
  · rw [if_pos hlt] at h
    obtain rfl := Except.ok.inj h
    unfold lexLt at hword
    split at hword <;> simp at hword
  rw [if_neg hlt] at h
  by_cases hgt : c = '>'
  · rw [if_pos hgt] at h
    obtain rfl := Except.ok.inj h
    unfold lexGt at hword
    split at hword <;> simp at hword
  rw [if_neg hgt] at h
  by_cases hbang : c = '!'
  · rw [if_pos hbang] at h
    exact absurd hword (lexBang_not_word h w)
  rw [if_neg hbang] at h
  by_cases hpipe : c = '|'
  · rw [if_pos hpipe] at h
    exact absurd hword (lexPipe_not_word h w)
  rw [if_neg hpipe] at h
  by_cases hcolon : c = ':'
  · rw [if_pos hcolon] at h
    exact absurd hword (lexColon_not_word h w)
  rw [if_neg hcolon] at h
  by_cases hdollar : c = '$'
  · rw [if_pos hdollar] at h
    exact absurd hword (lexNumparam_not_word h w)
  rw [if_neg hdollar] at h
  by_cases hquote : c = '\''
  · rw [if_pos hquote] at h
    split at h
    · obtain rfl := Except.ok.inj h
      simp at hword
    · simp at h
  rw [if_neg hquote] at h
  by_cases hdouble : c = '"'
  · rw [if_pos hdouble] at h
    exact .inl hdouble
  rw [if_neg hdouble] at h
  by_cases htick : c = '\x60'
  · rw [if_pos htick] at h
    exact .inr (.inl htick)
  rw [if_neg htick] at h
  by_cases hdigit : c.isDigit = true
  · rw [if_pos hdigit] at h
    exact absurd hword (lexNumber_not_word h w)
  rw [if_neg hdigit] at h
  by_cases halpha : (c == '_' || c.isAlpha) = true
  · rw [if_pos halpha] at h
    obtain rfl := Except.ok.inj h
    exact .inr (.inr (Tok.word.inj hword))
  · rw [if_neg halpha] at h
    simp at h

/-- The character the first token starts at, when that is a word: a quote, the first
character of the word, or, if comments come first, a dash. -/
theorem first_of_lexLoop {w : String} {toks : List Tok} : ∀ {fuel : Nat} {s : List Char},
    lexLoop fuel s = .ok (.word w :: toks) → ∃ pre c rest, s = pre ++ c :: rest ∧ (∀ x ∈ pre, isAsciiWhitespace x = true) ∧
      (c = '-' ∨ c = '"' ∨ c = '\x60' ∨ String.ofList ((c :: rest).takeWhile isWordChar) = w)
  | _, [], h => by simp [lexLoop] at h
  | 0, _ :: _, h => by simp [lexLoop] at h
  | fuel + 1, c :: rest, h => by
    obtain ⟨⟨tok, rest'⟩, hone, h⟩ := Except.bind_eq_ok.1 h
    obtain ⟨toks', hloop, h⟩ := Except.bind_eq_ok.1 h
    have htoks : tok.toList ++ toks' = .word w :: toks := Except.ok.inj h
    unfold lexOne at hone
    split_ifs at hone with hspace hcomment harrow htext
    · obtain ⟨rfl, rfl⟩ := Prod.mk.inj (Except.ok.inj hone)
      rw [Option.toList_none, List.nil_append] at htoks
      obtain ⟨pre, d, rest', rfl, hpre, hd⟩ := first_of_lexLoop (htoks ▸ hloop)
      exact ⟨c :: pre, d, rest', rfl, by simpa [hspace] using hpre, hd⟩
    · exact ⟨[], c, rest, rfl, by simp, .inl hcomment.1⟩
    · exact ⟨[], c, rest, rfl, by simp, .inl harrow.1⟩
    · exact ⟨[], c, rest, rfl, by simp, .inl harrow.1⟩
    · refine ⟨[], c, rest, rfl, by simp, ?_⟩
      cases hsimple : simpleToken c with
      | some t =>
        rw [hsimple] at hone
        obtain ⟨rfl, rfl⟩ := Prod.mk.inj (Except.ok.inj hone)
        obtain rfl : t = .word w := (List.cons.inj htoks).1
        unfold simpleToken at hsimple
        split at hsimple <;> simp at hsimple
      | none =>
        rw [hsimple] at hone
        cases hlonger : lexLonger c rest with
        | error e => simp [hlonger, Except.map] at hone
        | ok r =>
          rw [hlonger] at hone
          obtain ⟨rfl, rfl⟩ := Prod.mk.inj (Except.ok.inj hone)
          have hword : r.1 = .word w := (List.cons.inj htoks).1
          exact .inr (first_of_lexLonger hlonger hword)

/-! ## The keyword of a statement -/

open Toks

/-- The keywords that start the statements of a kind. -/
def Stmt.keywords : Stmt → List String
  | .ddl _ => ["create", "drop", "alter"]
  | .dml _ => ["insert", "update", "delete"]
  | .select _ => ["select", "with"]
  | .begin => ["begin", "start"]
  | .commit => ["commit", "end"]
  | .rollback | .rollbackTo _ => ["rollback", "abort"]
  | .savepoint _ => ["savepoint"]
  | .releaseSavepoint _ => ["release"]
  | .noop => ["set", "reset", "pragma", "vacuum", "analyze", "discard"]
  | .setVectorEf _ | .setSession _ => ["set", "reset"]
  | .show _ => ["show"]
  | .explain _ => ["explain"]

def Stmt.StartsAt (stmt : Stmt) (ts : Toks) : Prop := ∃ kw ∈ stmt.keywords, isKw kw ts = true

variable {G : Grammar} {src : String} {fuel : Nat} {ts : Toks} {stmt : Stmt} {r : Nat × Toks}

theorem lift_eq_ok {α : Type} {f : α → Stmt} {p : Parsed α} (h : Parsed.lift f p = .ok (stmt, r)) :
    ∃ a, stmt = f a := by
  cases p with
  | error e => cases h
  | ok a => exact ⟨a.1, (Prod.mk.inj (Except.ok.inj h)).1.symm⟩

theorem plain_eq_ok {p : Res (Stmt × Toks)} (h : plain p = .ok (stmt, r)) : ∃ rest, p = .ok (stmt, rest) := by
  cases p with
  | error e => cases h
  | ok a =>
    obtain ⟨hstmt, -⟩ := Prod.mk.inj (Except.ok.inj h)
    exact ⟨a.2, by rw [← hstmt]⟩

theorem map_stmt_eq_ok {f : String → Stmt} {p : Res (String × Toks)} {rest : Toks}
    (h : (p.map fun r => (f r.1, r.2)) = .ok (stmt, rest)) : ∃ a, stmt = f a := by
  cases p with
  | error e => cases h
  | ok a => exact ⟨a.1, (Prod.mk.inj (Except.ok.inj h)).1.symm⟩

theorem setStmt_startsAt {rest : Toks} (hkw : isKw "set" ts = true) {us : Toks} (h : setStmt us = .ok (stmt, rest)) :
    stmt.StartsAt ts := by
  unfold setStmt at h
  dsimp only at h
  cases hrole : eatKw "role" (skipAny ["session", "local"] us) with
  | some vs =>
    rw [hrole] at h
    dsimp only at h
    cases hnone : eatAny ["none", "default"] vs with
    | some xs =>
      rw [hnone] at h
      obtain ⟨rfl, -⟩ := Prod.mk.inj (Except.ok.inj h)
      exact ⟨"set", by simp [Stmt.keywords], hkw⟩
    | none =>
      rw [hnone] at h
      obtain ⟨⟨role, xs⟩, -, h⟩ := Except.bind_eq_ok.1 h
      obtain ⟨rfl, -⟩ := Prod.mk.inj (Except.ok.inj h)
      exact ⟨"set", by simp [Stmt.keywords], hkw⟩
  | none =>
    rw [hrole] at h
    obtain ⟨rfl, -⟩ := Prod.mk.inj (Except.ok.inj h)
    refine ⟨"set", ?_, hkw⟩
    split_ifs <;> simp [Stmt.keywords]

theorem resetStmt_startsAt (hkw : isKw "reset" ts = true) (us : Toks) : (resetStmt us).1.StartsAt ts := by
  refine ⟨"reset", ?_, hkw⟩
  unfold resetStmt
  dsimp only
  split
  · simp [Stmt.keywords]
  · dsimp only
    split_ifs <;> simp [Stmt.keywords]

theorem transactionStmt_startsAt {p : Res (Stmt × Toks)} (h : transactionStmt ts = some p) {rest : Toks}
    (hp : p = .ok (stmt, rest)) : stmt.StartsAt ts := by
  subst hp
  unfold transactionStmt at h
  by_cases hbegin : isKw "begin" ts = true
  · rw [if_pos hbegin] at h
    obtain ⟨rfl, -⟩ := Prod.mk.inj (Except.ok.inj (Option.some.inj h))
    exact ⟨"begin", by simp [Stmt.keywords], hbegin⟩
  rw [if_neg hbegin] at h
  by_cases hstart : isKw "start" ts = true
  · rw [if_pos hstart] at h
    obtain ⟨rfl, -⟩ := Prod.mk.inj (Except.ok.inj (Option.some.inj h))
    exact ⟨"start", by simp [Stmt.keywords], hstart⟩
  rw [if_neg hstart] at h
  by_cases hcommit : (isKw "commit" ts || isKw "end" ts) = true
  · rw [if_pos hcommit] at h
    obtain ⟨rfl, -⟩ := Prod.mk.inj (Except.ok.inj (Option.some.inj h))
    rcases Bool.or_eq_true_iff.1 hcommit with hkw | hkw
    · exact ⟨"commit", by simp [Stmt.keywords], hkw⟩
    · exact ⟨"end", by simp [Stmt.keywords], hkw⟩
  rw [if_neg hcommit] at h
  by_cases hsavepoint : isKw "savepoint" ts = true
  · rw [if_pos hsavepoint] at h
    obtain ⟨a, rfl⟩ := map_stmt_eq_ok (Option.some.inj h)
    exact ⟨"savepoint", by simp [Stmt.keywords], hsavepoint⟩
  rw [if_neg hsavepoint] at h
  by_cases hrelease : isKw "release" ts = true
  · rw [if_pos hrelease] at h
    obtain ⟨a, rfl⟩ := map_stmt_eq_ok (Option.some.inj h)
    exact ⟨"release", by simp [Stmt.keywords], hrelease⟩
  rw [if_neg hrelease] at h
  by_cases hrollback : (isKw "rollback" ts || isKw "abort" ts) = true
  · rw [if_pos hrollback] at h
    have hkw : ∃ kw ∈ ["rollback", "abort"], isKw kw ts = true := by simpa using hrollback
    dsimp only at h
    split at h
    · obtain ⟨a, rfl⟩ := map_stmt_eq_ok (Option.some.inj h)
      exact hkw
    · obtain ⟨rfl, -⟩ := Prod.mk.inj (Except.ok.inj (Option.some.inj h))
      exact hkw
  · rw [if_neg hrollback] at h
    cases h

/-- **A statement starts with one of its keywords.** -/
theorem statement_startsAt (h : statement G src fuel ts = .ok (stmt, r)) : stmt.StartsAt ts := by
  cases fuel with
  | zero => cases h
  | succ fuel =>
    unfold statement at h
    by_cases hcreate : isKw "create" ts = true
    · rw [if_pos hcreate] at h
      obtain ⟨a, rfl⟩ := lift_eq_ok h
      exact ⟨"create", by simp [Stmt.keywords], hcreate⟩
    rw [if_neg hcreate] at h
    by_cases hdrop : isKw "drop" ts = true
    · rw [if_pos hdrop] at h
      obtain ⟨a, rfl⟩ := lift_eq_ok h
      exact ⟨"drop", by simp [Stmt.keywords], hdrop⟩
    rw [if_neg hdrop] at h
    by_cases halter : isKw "alter" ts = true
    · rw [if_pos halter] at h
      obtain ⟨a, rfl⟩ := lift_eq_ok h
      exact ⟨"alter", by simp [Stmt.keywords], halter⟩
    rw [if_neg halter] at h
    by_cases hinsert : isKw "insert" ts = true
    · rw [if_pos hinsert] at h
      obtain ⟨a, rfl⟩ := lift_eq_ok h
      exact ⟨"insert", by simp [Stmt.keywords], hinsert⟩
    rw [if_neg hinsert] at h
    by_cases hselect : (isKw "select" ts || isKw "with" ts) = true
    · rw [if_pos hselect] at h
      obtain ⟨a, rfl⟩ := lift_eq_ok h
      exact (by simpa using hselect : ∃ kw ∈ ["select", "with"], isKw kw ts = true)
    rw [if_neg hselect] at h
    by_cases hupdate : isKw "update" ts = true
    · rw [if_pos hupdate] at h
      obtain ⟨a, rfl⟩ := lift_eq_ok h
      exact ⟨"update", by simp [Stmt.keywords], hupdate⟩
    rw [if_neg hupdate] at h
    by_cases hdelete : isKw "delete" ts = true
    · rw [if_pos hdelete] at h
      obtain ⟨a, rfl⟩ := lift_eq_ok h
      exact ⟨"delete", by simp [Stmt.keywords], hdelete⟩
    rw [if_neg hdelete] at h
    by_cases hexplain : isKw "explain" ts = true
    · rw [if_pos hexplain] at h
      obtain ⟨a, rfl⟩ := lift_eq_ok h
      exact ⟨"explain", by simp [Stmt.keywords], hexplain⟩
    rw [if_neg hexplain] at h
    by_cases hshow : isKw "show" ts = true
    · rw [if_pos hshow] at h
      obtain ⟨rfl, -⟩ := Prod.mk.inj (Except.ok.inj h)
      exact ⟨"show", by simp [Stmt.keywords], hshow⟩
    rw [if_neg hshow] at h
    by_cases hset : isKw "set" ts = true
    · rw [if_pos hset] at h
      obtain ⟨rest, hset'⟩ := plain_eq_ok h
      exact setStmt_startsAt hset hset'
    rw [if_neg hset] at h
    by_cases hreset : isKw "reset" ts = true
    · rw [if_pos hreset] at h
      obtain ⟨rest, hreset'⟩ := plain_eq_ok h
      have hstmt : (resetStmt ts.tail).1 = stmt := congrArg Prod.fst (Except.ok.inj hreset')
      exact hstmt ▸ resetStmt_startsAt hreset ts.tail
    rw [if_neg hreset] at h
    by_cases hnoop : (isKw "pragma" ts || isKw "vacuum" ts || isKw "analyze" ts || isKw "discard" ts) = true
    · rw [if_pos hnoop] at h
      obtain ⟨rfl, -⟩ := Prod.mk.inj (Except.ok.inj h)
      simp only [Bool.or_eq_true] at hnoop
      rcases hnoop with ((hkw | hkw) | hkw) | hkw
      · exact ⟨"pragma", by simp [Stmt.keywords], hkw⟩
      · exact ⟨"vacuum", by simp [Stmt.keywords], hkw⟩
      · exact ⟨"analyze", by simp [Stmt.keywords], hkw⟩
      · exact ⟨"discard", by simp [Stmt.keywords], hkw⟩
    rw [if_neg hnoop] at h
    cases htxn : transactionStmt ts with
    | none => rw [htxn] at h; cases h
    | some p =>
      rw [htxn] at h
      obtain ⟨rest, hp⟩ := plain_eq_ok h
      exact transactionStmt_startsAt htxn hp

theorem word_of_isKw {kw : String} (h : isKw kw ts = true) : ∃ w rest, ts = .word w :: rest ∧ eqIgnoreAsciiCase w kw = true := by
  unfold isKw at h
  split at h
  · exact ⟨_, _, rfl, h⟩
  · cases h

/-- The keywords are in lower case. -/
theorem Stmt.keywords_lower (stmt : Stmt) : ∀ kw ∈ stmt.keywords, kw.toList.map Char.toLower = kw.toList := by
  cases stmt <;> simp [Stmt.keywords]

theorem Stmt.keyword_ne_nil (stmt : Stmt) : ∀ kw ∈ stmt.keywords, kw.toList ≠ [] := by
  cases stmt <;> simp [Stmt.keywords]

/-- **Where a parsed text starts**, after white space: at a comment, at a quoted
identifier, or at one of the keywords of the statement it is. -/
theorem opening_of_parseSql {sql : List Char} {n : Nat} (h : parseSql G sql = .ok (stmt, n)) :
    ∃ kw ∈ stmt.keywords, ∃ pre c rest, sql = pre ++ c :: rest ∧ (∀ x ∈ pre, isAsciiWhitespace x = true) ∧
      (c = '-' ∨ c = '"' ∨ c = '\x60' ∨ ((c :: rest).takeWhile isWordChar).map Char.toLower = kw.toList) := by
  obtain ⟨toks, hlex, h⟩ := Except.bind_eq_ok.1 h
  obtain ⟨⟨stmt', n', rest'⟩, hstmt, h⟩ := Except.bind_eq_ok.1 h
  obtain rfl : stmt' = stmt := by
    dsimp only at h
    split at h
    · exact (Prod.mk.inj (Except.ok.inj h)).1
    · cases h
  obtain ⟨kw, hkw, hstarts⟩ := statement_startsAt hstmt
  obtain ⟨w, rest, rfl, heq⟩ := word_of_isKw hstarts
  obtain ⟨pre, c, rest, rfl, hpre, hc⟩ := first_of_lexLoop hlex
  refine ⟨kw, hkw, pre, c, rest, rfl, hpre, ?_⟩
  rcases hc with hc | hc | hc | rfl
  · exact .inl hc
  · exact .inr (.inl hc)
  · exact .inr (.inr (.inl hc))
  · refine .inr (.inr (.inr (map_toLower_of_eqIgnoreAsciiCase (stmt'.keywords_lower kw hkw) ?_)))
    have hkw' : String.ofList kw.toList = kw := String.ofList_toList
    rw [hkw']
    exact heq

end Twill