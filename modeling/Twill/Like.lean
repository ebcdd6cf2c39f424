/-
`LIKE` (`crates/engine/src/exec.rs`: `like_match`, `like_go`) against what
the pattern says. `Like` reads the pattern character by character, with no
tokens and no backtracking: a wildcard takes any run, `_` one character,
an escaped character and every other character itself. The matcher, with
its shortcut for a run of `%`, decides exactly this relation.
-/
import Twill.Eval

namespace Twill

/-! ## What a token takes -/

/-- A pattern that is already cut into tokens matches a text that splits
into one run for each of them. -/
inductive Takes : List LikeTok → List Char → Prop
  | done : Takes [] []
  | any (run : List Char) {p s} : Takes p s → Takes (.any :: p) (run ++ s)
  | one (c : Char) {p s} : Takes p s → Takes (.one :: p) (c :: s)
  | lit (c : Char) {p s} : Takes p s → Takes (.lit c :: p) (c :: s)

@[simp] theorem takes_nil {s : List Char} : Takes [] s ↔ s = [] :=
  ⟨fun h => by cases h; rfl, fun h => h ▸ .done⟩

@[simp] theorem takes_any {p : List LikeTok} {s : List Char} :
    Takes (.any :: p) s ↔ ∃ run rest, s = run ++ rest ∧ Takes p rest := by
  constructor
  · intro h
    cases h with
    | any run h => exact ⟨run, _, rfl, h⟩
  · rintro ⟨run, rest, rfl, h⟩
    exact .any run h

@[simp] theorem takes_one {p : List LikeTok} {s : List Char} :
    Takes (.one :: p) s ↔ ∃ c rest, s = c :: rest ∧ Takes p rest := by
  constructor
  · intro h
    cases h with
    | one c h => exact ⟨c, _, rfl, h⟩
  · rintro ⟨c, rest, rfl, h⟩
    exact .one c h

@[simp] theorem takes_lit {c : Char} {p : List LikeTok} {s : List Char} :
    Takes (.lit c :: p) s ↔ ∃ rest, s = c :: rest ∧ Takes p rest := by
  constructor
  · intro h
    cases h with
    | lit _ h => exact ⟨_, rfl, h⟩
  · rintro ⟨rest, rfl, h⟩
    exact .lit c h

/-- Tokens in front of two patterns that take the same texts. -/
theorem Takes.append_congr {p q : List LikeTok} (h : ∀ s, Takes p s ↔ Takes q s) :
    ∀ (a : List LikeTok) (s : List Char), Takes (a ++ p) s ↔ Takes (a ++ q) s := by
  intro a
  induction a with
  | nil => exact h
  | cons t a ih =>
    intro s
    cases t <;> simp [ih]

/-- Two `%` in a row take what one takes. -/
theorem takes_any_any (p : List LikeTok) (s : List Char) :
    Takes (.any :: .any :: p) s ↔ Takes (.any :: p) s := by
  constructor
  · intro h
    obtain ⟨run, _, rfl, h₁⟩ := takes_any.1 h
    obtain ⟨run', rest, rfl, h₂⟩ := takes_any.1 h₁
    rw [← List.append_assoc]
    exact .any (run ++ run') h₂
  · intro h
    exact .any [] h

/-! ## The matcher -/

/-- `like_go` with its shortcut decides `Takes`. -/
theorem likeGo_eq_true (p : List LikeTok) (s : List Char) : likeGo p s = true ↔ Takes p s := by
  induction p generalizing s with
  | nil => simp [likeGo]
  | cons t p ih =>
    cases t with
    | any =>
      cases p with
      | nil =>
        have h : Takes [.any] (s ++ []) := .any s .done
        rw [List.append_nil] at h
        simp [likeGo, h]
      | cons t' p =>
        cases t' with
        | any =>
          -- the run of `%` shrinks by one and no other split is tried
          rw [takes_any_any, ← ih s]
          rfl
        | one | lit c =>
          simp only [likeGo, List.any_eq_true, List.mem_tails]
          rw [takes_any]
          constructor
          · rintro ⟨rest, ⟨run, rfl⟩, h⟩
            exact ⟨run, rest, rfl, (ih rest).1 h⟩
          · rintro ⟨run, rest, rfl, h⟩
            exact ⟨rest, ⟨run, rfl⟩, (ih rest).2 h⟩
    | one => cases s <;> simp [likeGo, ih]
    | lit c =>
      cases s with
      | nil => simp [likeGo]
      | cons d s => simp [likeGo, ih]

/-! ## The pattern's own characters -/

/-- What a pattern matches, read off its characters: `fold` is the case
folding, `escape` the character of the ESCAPE clause. -/
inductive Like (fold : Char → Char) (escape : Option Char) : List Char → List Char → Prop
  | nil : Like fold escape [] []
  /-- The escape character makes the next one stand for itself … -/
  | escaped {e c p s} : some e = escape → Like fold escape p s →
      Like fold escape (e :: c :: p) (fold c :: s)
  /-- … and at the pattern's end it stands for itself. -/
  | last {e} : some e = escape → Like fold escape [e] [fold e]
  | any {p s} (run : List Char) : some '%' ≠ escape → Like fold escape p s →
      Like fold escape ('%' :: p) (run ++ s)
  | one {p s} (c : Char) : some '_' ≠ escape → Like fold escape p s →
      Like fold escape ('_' :: p) (c :: s)
  | self {c p s} : some c ≠ escape → c ≠ '%' → c ≠ '_' → Like fold escape p s →
      Like fold escape (c :: p) (fold c :: s)

section Tokens

variable {fold : Char → Char} {escape : Option Char}

theorem likeTokens_escaped {e c : Char} {p : List Char} (h : some e = escape) :
    likeTokens fold escape (e :: c :: p) = .lit (fold c) :: likeTokens fold escape p := by
  rw [likeTokens, if_pos h]

/-- The token of a character that is not the escape character. -/
def plainTok (fold : Char → Char) (c : Char) : LikeTok :=
  if c = '%' then .any else if c = '_' then .one else .lit (fold c)

theorem likeTokens_plain {c : Char} (p : List Char) (h : some c ≠ escape) :
    likeTokens fold escape (c :: p) = plainTok fold c :: likeTokens fold escape p := by
  unfold plainTok
  cases p with
  | nil =>
    change likeTokens fold escape [c] = [_]
    rw [likeTokens, if_neg h]
    split
    · rfl
    · split <;> rfl
  | cons d p =>
    rw [likeTokens, if_neg h]
    split
    · rfl
    · split <;> rfl

theorem like_of_takes (p : List Char) :
    ∀ s, Takes (likeTokens fold escape p) s → Like fold escape p s := by
  intro s h
  match p with
  | [] =>
    obtain rfl := takes_nil.1 h
    exact .nil
  | c :: p =>
    by_cases hc : some c = escape
    · match p with
      | [] =>
        rw [likeTokens, if_pos hc] at h
        obtain ⟨rest, rfl, hrest⟩ := takes_lit.1 h
        obtain rfl := takes_nil.1 hrest
        exact .last hc
      | d :: p =>
        rw [likeTokens_escaped hc] at h
        obtain ⟨rest, rfl, hrest⟩ := takes_lit.1 h
        exact .escaped hc (like_of_takes p rest hrest)
    · rw [likeTokens_plain p hc, plainTok] at h
      by_cases h₁ : c = '%'
      · subst h₁
        obtain ⟨run, rest, rfl, hrest⟩ := takes_any.1 h
        exact .any run hc (like_of_takes p rest hrest)
      · rw [if_neg h₁] at h
        by_cases h₂ : c = '_'
        · subst h₂
          obtain ⟨d, rest, rfl, hrest⟩ := takes_one.1 h
          exact .one d hc (like_of_takes p rest hrest)
        · rw [if_neg h₂] at h
          obtain ⟨rest, rfl, hrest⟩ := takes_lit.1 h
          exact .self hc h₁ h₂ (like_of_takes p rest hrest)
termination_by p.length

/-- The tokens of a pattern take what the pattern's characters say. -/
theorem takes_likeTokens (p s : List Char) : Takes (likeTokens fold escape p) s ↔ Like fold escape p s := by
  refine ⟨like_of_takes p s, fun h => ?_⟩
  induction h with
  | nil => exact .done
  | escaped he _ ih =>
    rw [likeTokens_escaped he]
    exact .lit _ ih
  | last he =>
    rw [likeTokens, if_pos he]
    exact .lit _ .done
  | any run hne _ ih =>
    rw [likeTokens_plain _ hne]
    exact .any run ih
  | one c hne _ ih =>
    rw [likeTokens_plain _ hne]
    exact .one c ih
  | self hne h₁ h₂ _ ih =>
    rw [likeTokens_plain _ hne, plainTok, if_neg h₁, if_neg h₂]
    exact .lit _ ih

/-! ## Runs of wildcards -/

/-- What the front of a pattern leaves to read: whether its last character is an escape
that waits for the next one. -/
def pendingEscape (escape : Option Char) : List Char → Bool
  | [] => false
  | [c] => some c = escape
  | c :: d :: p => if some c = escape then pendingEscape escape p else pendingEscape escape (d :: p)

/-- Behind a front with nothing pending the pattern is read anew. -/
theorem likeTokens_append (a p : List Char) (h : pendingEscape escape a = false) :
    likeTokens fold escape (a ++ p) = likeTokens fold escape a ++ likeTokens fold escape p := by
  match a with
  | [] => rfl
  | [c] =>
    have hc : some c ≠ escape := by simpa [pendingEscape] using h
    rw [List.singleton_append, likeTokens_plain p hc, likeTokens_plain [] hc]
    rfl
  | c :: d :: a =>
    rw [pendingEscape] at h
    by_cases hc : some c = escape
    · rw [if_pos hc] at h
      rw [List.cons_append, List.cons_append, likeTokens_escaped hc, likeTokens_escaped hc,
        likeTokens_append a p h, List.cons_append]
    · rw [if_neg hc] at h
      have ih := likeTokens_append (d :: a) p h
      rw [List.cons_append, likeTokens_plain _ hc, likeTokens_plain _ hc, ih, List.cons_append]
termination_by a.length

/-- Two wildcards in a row, behind any front and before any rest of the pattern. -/
theorem like_any_any {a : List Char} (p s : List Char) (hesc : some '%' ≠ escape)
    (ha : pendingEscape escape a = false) :
    Like fold escape (a ++ '%' :: '%' :: p) s ↔ Like fold escape (a ++ '%' :: p) s := by
  rw [← takes_likeTokens, ← takes_likeTokens, likeTokens_append a _ ha, likeTokens_append a _ ha,
    likeTokens_plain _ hesc, likeTokens_plain _ hesc]
  exact Takes.append_congr (fun t => takes_any_any _ t) _ _

end Tokens

/-! ## The predicate -/

/-- The case folding of `ILIKE`; `LIKE` has none. -/
def likeFold (insensitive : Bool) (c : Char) : Char := if insensitive then c.toLower else c

/-- **`like_match` matches what the pattern says**, and a run of wildcards is one wildcard:
behind a front of the pattern with no escape pending, and with an escape character other
than `%`, a `%` beside a `%` changes nothing. -/
theorem like_match_matches (s pattern : String) (escape : Option Char) (insensitive : Bool) :
    (likeMatch s pattern escape insensitive = true ↔
      Like (likeFold insensitive) escape pattern.toList (s.toList.map (likeFold insensitive))) ∧
    ∀ front back : List Char, pattern.toList = front ++ '%' :: '%' :: back → some '%' ≠ escape →
      pendingEscape escape front = false →
      likeMatch s (String.ofList (front ++ '%' :: back)) escape insensitive =
        likeMatch s pattern escape insensitive := by
  have hmatch : ∀ p : String, likeMatch s p escape insensitive = true ↔
      Like (likeFold insensitive) escape p.toList (s.toList.map (likeFold insensitive)) := by
    intro p
    unfold likeMatch
    rw [likeGo_eq_true]
    exact takes_likeTokens _ _
  refine ⟨hmatch pattern, fun front back hp hesc hfront => ?_⟩
  rw [Bool.eq_iff_iff, hmatch, hmatch, hp, String.toList_ofList]
  exact (like_any_any back _ hesc hfront).symm

/-- With `!` as the escape character the second `%` of `a!%%%b` is one of two wildcards. -/
theorem like_match_matches_escaped :
    likeMatch "a%xb" (String.ofList (['a', '!', '%'] ++ '%' :: ['b'])) (some '!') false =
      likeMatch "a%xb" "a!%%%b" (some '!') false :=
  (like_match_matches "a%xb" "a!%%%b" (some '!') false).2 ['a', '!', '%'] ['b'] rfl (by decide) (by decide)

/-- Behind the escape character the first `%` is itself and the second the wildcard. -/
theorem like_match_escaped_run :
    ¬ ∀ (s : String) (escape : Option Char) (front back : List Char),
      likeMatch s (String.ofList (front ++ '%' :: '%' :: back)) escape false =
        likeMatch s (String.ofList (front ++ '%' :: back)) escape false := by
  intro h
  have h := h "%a" (some '!') ['!'] []
  revert h
  decide

end Twill
