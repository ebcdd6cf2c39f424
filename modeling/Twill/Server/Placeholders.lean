/-
Placeholder rewriting (`session.rs`: `rewrite_placeholders`) against the lexer.

The scanner knows two quotes and no comments, backticks or bytes. It agrees with the lexer exactly
when its quotes are closed at every placeholder and open at every other `$n`, and the literals and
quoted identifiers are ASCII.
-/
import Twill.Lexemes
import Twill.SqlParser
import Twill.Server.Session

namespace Twill.Server

/-! ## The scanner -/

/-- Whether a single and whether a double quote is open. -/
abbrev Quotes := Bool × Bool

namespace Quotes

def after (f : Quotes) (c : Char) : Quotes :=
  if c = '\'' ∧ !f.2 then (!f.1, f.2) else if c = '"' ∧ !f.1 then (f.1, !f.2) else f

def through (f : Quotes) (s : List Char) : Quotes := s.foldl after f

def closed (f : Quotes) : Bool := !f.1 && !f.2

end Quotes

def startsPlaceholder (f : Quotes) (c : Char) (s : List Char) : Bool :=
  c == '$' && f.closed && s.head?.any Char.isDigit

/-- The scanner of `rewrite_placeholders`: what it writes, and the digits of each number it
reads. -/
def scan : Nat → Quotes → List Char → List Char × List (List Char)
  | 0, _, _ | _, _, [] => ([], [])
  | fuel + 1, f, c :: s =>
    if startsPlaceholder f c s then
      let r := scan fuel f (s.dropWhile Char.isDigit)
      ('?' :: r.1, s.takeWhile Char.isDigit :: r.2)
    else
      let r := scan fuel (f.after c) s
      (byteChar c ++ r.1, r.2)

def scanned (f : Quotes) (s : List Char) : List Char × List (List Char) := scan s.length f s

/-- Whether the scanner reads a number in the text. -/
def meets (f : Quotes) : List Char → Bool
  | [] => false
  | c :: s => startsPlaceholder f c s || meets (f.after c) s

theorem go_eq_scan (fuel : Nat) (single double : Bool) (s : List Char) :
    rewritePlaceholders.go fuel single double s =
      ((scan fuel (single, double) s).1, (scan fuel (single, double) s).2.map fun ds => decimal ds % 2 ^ 64) := by
  induction fuel generalizing single double s with
  | zero => cases s <;> rfl
  | succ fuel ih =>
    cases s with
    | nil => rfl
    | cons c s =>
      unfold rewritePlaceholders.go scan
      dsimp only
      split
      · next hquote =>
        obtain ⟨rfl, hdouble⟩ := hquote
        rw [if_neg (by simp [startsPlaceholder]), ih]
        simp [Quotes.after, hdouble, byteChar, String.utf8EncodeChar]
      · next hquote =>
        split
        · next hdouble =>
          obtain ⟨rfl, hsingle⟩ := hdouble
          rw [if_neg (by simp [startsPlaceholder]), ih]
          simp [Quotes.after, hsingle, byteChar, String.utf8EncodeChar]
        · next hdouble =>
          split
          · next hstart =>
            obtain ⟨rfl, hs, hd, hhead⟩ := hstart
            rw [if_pos (by simp_all [startsPlaceholder, Quotes.closed]), ih]
            rfl
          · next hstart =>
            have hafter : Quotes.after (single, double) c = (single, double) := by
              rw [Quotes.after, if_neg hquote, if_neg hdouble]
            rw [if_neg, ih, hafter]
            · rfl
            · simpa [startsPlaceholder, Quotes.closed, and_assoc] using hstart

theorem rewritePlaceholders_eq (s : List Char) : rewritePlaceholders s =
    ((scanned (false, false) s).1, (scanned (false, false) s).2.map fun ds => decimal ds % 2 ^ 64) :=
  go_eq_scan s.length false false s

theorem scan_fuel {fuel fuel' : Nat} {s : List Char} (h : s.length ≤ fuel) (h' : s.length ≤ fuel') (f : Quotes) :
    scan fuel f s = scan fuel' f s := by
  induction fuel generalizing fuel' s f with
  | zero =>
    obtain rfl : s = [] := by simpa using h
    cases fuel' <;> rfl
  | succ fuel ih =>
    cases s with
    | nil => cases fuel' <;> rfl
    | cons c s =>
      obtain ⟨less, rfl⟩ : ∃ less, fuel' = less + 1 := ⟨fuel' - 1, by simp at h'; omega⟩
      simp only [List.length_cons, Nat.add_le_add_iff_right] at h h'
      have hdrop : (s.dropWhile Char.isDigit).length ≤ s.length := (List.dropWhile_suffix _).length_le
      unfold scan
      rw [ih (hdrop.trans h) (hdrop.trans h'), ih h h']

/-- At a placeholder. -/
theorem scanned_placeholder {f : Quotes} {c : Char} {s : List Char} (h : startsPlaceholder f c s = true) :
    scanned f (c :: s) = ('?' :: (scanned f (s.dropWhile Char.isDigit)).1,
      s.takeWhile Char.isDigit :: (scanned f (s.dropWhile Char.isDigit)).2) := by
  have hdrop : (s.dropWhile Char.isDigit).length ≤ s.length := (List.dropWhile_suffix _).length_le
  unfold scanned
  rw [List.length_cons, scan, if_pos h, scan_fuel hdrop (Nat.le_refl _)]

/-- At any other character. -/
theorem scanned_cons {f : Quotes} {c : Char} {s : List Char} (h : startsPlaceholder f c s = false) :
    scanned f (c :: s) = (byteChar c ++ (scanned (f.after c) s).1, (scanned (f.after c) s).2) := by
  unfold scanned
  rw [List.length_cons, scan, if_neg (by simp [h])]

@[simp] theorem scanned_nil (f : Quotes) : scanned f [] = ([], []) := rfl

/-- Induction along the scanner. -/
theorem scan_induction {P : Quotes → List Char → Prop} (nil : ∀ f, P f [])
    (placeholder : ∀ f c s, startsPlaceholder f c s = true → P f (s.dropWhile Char.isDigit) → P f (c :: s))
    (other : ∀ f c s, startsPlaceholder f c s = false → P (f.after c) s → P f (c :: s)) (f : Quotes) (s : List Char) :
    P f s := by
  induction hlen : s.length using Nat.strong_induction_on generalizing f s with
  | _ n ih =>
    cases s with
    | nil => exact nil f
    | cons c s =>
      have hdrop : (s.dropWhile Char.isDigit).length ≤ s.length := (List.dropWhile_suffix _).length_le
      rw [List.length_cons] at hlen
      cases h : startsPlaceholder f c s with
      | true => exact placeholder f c s h (ih _ (by omega) f _ rfl)
      | false => exact other f c s h (ih _ (by omega) _ s rfl)

theorem after_digit {c : Char} (h : c.isDigit = true) (f : Quotes) : f.after c = f := by
  have hsingle : c ≠ '\'' := by rintro rfl; exact absurd h (by decide)
  have hdouble : c ≠ '"' := by rintro rfl; exact absurd h (by decide)
  rw [Quotes.after, if_neg (fun hh => hsingle hh.1), if_neg (fun hh => hdouble hh.1)]

theorem through_digits {ds : List Char} (h : ∀ c ∈ ds, c.isDigit = true) (f : Quotes) : f.through ds = f := by
  induction ds with
  | nil => rfl
  | cons c ds ih =>
    rw [Quotes.through, List.foldl_cons, after_digit (h c List.mem_cons_self)]
    exact ih fun d hd => h d (List.mem_cons_of_mem c hd)

theorem after_placeholder {f : Quotes} {c : Char} {s : List Char} (h : startsPlaceholder f c s = true) : f.after c = f := by
  simp only [startsPlaceholder, Bool.and_eq_true, beq_iff_eq] at h
  obtain ⟨⟨rfl, -⟩, -⟩ := h
  rfl

/-- The number that is read does not go on in the text that follows. -/
def Cut (s rest : List Char) : Prop :=
  ∀ u ds, s = u ++ '$' :: ds → (∀ c ∈ ds, c.isDigit = true) → Stops Char.isDigit rest

theorem Cut.tail {c : Char} {s rest : List Char} (h : Cut (c :: s) rest) : Cut s rest :=
  fun u ds hs => h (c :: u) ds (by rw [hs]; rfl)

theorem Cut.suffix {s t rest : List Char} (h : Cut (s ++ t) rest) : Cut t rest :=
  fun u ds ht => h (s ++ u) ds (by rw [ht, List.append_assoc])

theorem scanned_append {f : Quotes} {s rest : List Char} (h : Cut s rest) : scanned f (s ++ rest) =
    ((scanned f s).1 ++ (scanned (f.through s) rest).1, (scanned f s).2 ++ (scanned (f.through s) rest).2) := by
  induction f, s using scan_induction with
  | nil f => rfl
  | placeholder f c s hstart ih =>
    have hstart' : startsPlaceholder f c (s ++ rest) = true := by
      simp only [startsPlaceholder, Bool.and_eq_true] at hstart ⊢
      refine ⟨hstart.1, ?_⟩
      cases s with
      | nil => exact absurd hstart.2 (by simp)
      | cons d s => exact hstart.2
    have hsplit : s.takeWhile Char.isDigit ++ s.dropWhile Char.isDigit = s := List.takeWhile_append_dropWhile
    have hdigits : ∀ d ∈ s.takeWhile Char.isDigit, d.isDigit = true := fun d hd => List.mem_takeWhile_imp hd
    have hthrough : f.through (c :: s) = f.through (s.dropWhile Char.isDigit) := by
      rw [Quotes.through, List.foldl_cons, after_placeholder hstart, ← hsplit, List.foldl_append]
      rw [show List.foldl Quotes.after f (s.takeWhile Char.isDigit) = f from through_digits hdigits f, hsplit]
      rfl
    have hcut : Cut (s.dropWhile Char.isDigit) rest := by
      refine Cut.suffix (s := c :: s.takeWhile Char.isDigit) ?_
      rw [List.cons_append, hsplit]
      exact h
    -- the digits end in the text, or where it is cut
    have hrest : Stops Char.isDigit (s.dropWhile Char.isDigit ++ rest) := by
      cases hdrop : s.dropWhile Char.isDigit with
      | cons d t =>
        have := stops_dropWhile Char.isDigit s
        rw [hdrop] at this
        exact stops_cons.2 (stops_cons.1 this)
      | nil =>
        rw [hdrop, List.append_nil] at hsplit
        simp only [startsPlaceholder, Bool.and_eq_true, beq_iff_eq] at hstart
        exact h [] s (by rw [hstart.1.1]; rfl) (by rw [← hsplit]; exact hdigits)
    obtain ⟨htake, hdrop⟩ := takeWhile_append hdigits hrest
    rw [← List.append_assoc, hsplit] at htake hdrop
    rw [List.cons_append, scanned_placeholder hstart', scanned_placeholder hstart, htake, hdrop, ih hcut, hthrough]
    rfl
  | other f c s hstart ih =>
    have hstart' : startsPlaceholder f c (s ++ rest) = false := by
      cases s with
      | cons d s => exact hstart
      | nil =>
        by_contra hyes
        simp only [startsPlaceholder, Bool.not_eq_false, Bool.and_eq_true, beq_iff_eq] at hyes
        obtain ⟨⟨rfl, -⟩, hhead⟩ := hyes
        have := h [] [] rfl (by simp)
        rw [List.nil_append, this] at hhead
        cases hhead
    rw [List.cons_append, scanned_cons hstart', scanned_cons hstart, ih h.tail, List.append_assoc]
    rfl

/-! ## What is written -/

theorem not_mem_byteChar {c d : Char} (hd : d.toNat < 128) (hne : c ≠ d) : d ∉ byteChar c := by
  intro hmem
  by_cases hc : c.toNat < 128
  · rw [byteChar_ascii hc, List.mem_singleton] at hmem
    exact hne hmem.symm
  · have := le_of_mem_byteChar (by omega) hmem
    omega

theorem count_byteChar {c d : Char} (hd : d.toNat < 128) : (byteChar c).count d = [c].count d := by
  by_cases hne : c = d
  · rw [hne, byteChar_ascii hd]
  · rw [List.count_eq_zero.2 (not_mem_byteChar hd hne), List.count_eq_zero.2 (by simpa using Ne.symm hne)]

theorem scanned_of_not_meets {f : Quotes} {s : List Char} (h : meets f s = false) : scanned f s = (byteText s, []) := by
  induction s generalizing f with
  | nil => rfl
  | cons c s ih =>
    rw [meets, Bool.or_eq_false_iff] at h
    rw [scanned_cons h.1, ih h.2]
    rfl

/-- A number that is read takes a `$` from the text. -/
theorem count_scanned (f : Quotes) (s : List Char) :
    (scanned f s).1.count '$' ≤ s.count '$' ∧ (meets f s = true → (scanned f s).1.count '$' < s.count '$') ∧
      (meets f s = true → (scanned f s).2 ≠ []) := by
  induction f, s using scan_induction with
  | nil f => simp [meets]
  | placeholder f c s hstart ih =>
    have hc : c = '$' := by
      simp only [startsPlaceholder, Bool.and_eq_true, beq_iff_eq] at hstart
      exact hstart.1.1
    have hdrop : (s.dropWhile Char.isDigit).count '$' ≤ s.count '$' := (List.dropWhile_suffix _).sublist.count_le _
    have hlt : ('?' :: (scanned f (s.dropWhile Char.isDigit)).1).count '$' < (c :: s).count '$' := by
      rw [hc, List.count_cons_self, List.count_cons_of_ne (by decide)]
      omega
    rw [scanned_placeholder hstart]
    exact ⟨Nat.le_of_lt hlt, fun _ => hlt, fun _ => by simp⟩
  | other f c s hstart ih =>
    obtain ⟨hle, hlt, hne⟩ := ih
    have hcount : (c :: s).count '$' = [c].count '$' + s.count '$' := by
      rw [← List.count_append]
      rfl
    rw [scanned_cons hstart, List.count_append, count_byteChar (by decide), meets, hstart, Bool.false_or, hcount]
    exact ⟨by omega, fun h => by have := hlt h; omega, hne⟩

/-- What is written has no ASCII character, but `?`, that the text has not. -/
theorem mem_of_mem_scanned {d : Char} (hd : d.toNat < 128) (hparam : d ≠ '?') (f : Quotes) (s : List Char)
    (h : d ∈ (scanned f s).1) : d ∈ s := by
  induction f, s using scan_induction with
  | nil f => exact h
  | placeholder f c s hstart ih =>
    rw [scanned_placeholder hstart] at h
    rcases List.mem_cons.1 h with h | h
    · exact absurd h hparam
    · exact List.mem_cons_of_mem c ((List.dropWhile_suffix _).subset (ih h))
  | other f c s hstart ih =>
    rw [scanned_cons hstart] at h
    rcases List.mem_append.1 h with h | h
    · by_cases hc : c = d
      · rw [hc]
        exact List.mem_cons_self
      · exact absurd h (not_mem_byteChar hd hc)
    · exact List.mem_cons_of_mem c (ih h)

/-- The text goes on as it did, but for a `?`. -/
theorem stops_scanned {p : Char → Bool} (hparam : p '$' = false → p '?' = false)
    (hhigh : ∀ c d : Char, 128 ≤ c.toNat → 128 ≤ d.toNat → p c = false → p d = false) (f : Quotes) {s : List Char}
    (h : Stops p s) : Stops p (scanned f s).1 := by
  cases s with
  | nil => exact h
  | cons c s =>
    rw [stops_cons] at h
    cases hstart : startsPlaceholder f c s with
    | true =>
      rw [scanned_placeholder hstart]
      simp only [startsPlaceholder, Bool.and_eq_true, beq_iff_eq] at hstart
      exact stops_cons.2 (hparam (hstart.1.1 ▸ h))
    | false =>
      rw [scanned_cons hstart]
      by_cases hc : c.toNat < 128
      · rw [byteChar_ascii hc]
        exact stops_cons.2 h
      · cases hbytes : byteChar c with
        | nil =>
          have hlen := length_byteChar c
          rw [hbytes] at hlen
          exact absurd hlen.symm (Char.utf8Size_pos c).ne'
        | cons d ds =>
          have hd : d ∈ byteChar c := hbytes ▸ List.mem_cons_self
          exact stops_cons.2 (hhigh c d (by omega) (le_of_mem_byteChar (by omega) hd) h)

/-! ## Literals and quoted identifiers -/

theorem after_quote_quote (f : Quotes) : (f.after '\'').after '\'' = f := by
  obtain ⟨single, double⟩ := f
  cases single <;> cases double <;> rfl

theorem startsPlaceholder_quote (f : Quotes) {c : Char} (h : c ≠ '$') (s : List Char) : startsPlaceholder f c s = false := by
  simp [startsPlaceholder, h]

theorem literalChars_eq_self {s : List Char} (h : '\'' ∉ s) : s.flatMap literalChar = s := by
  induction s with
  | nil => rfl
  | cons c s ih =>
    rw [List.mem_cons, not_or] at h
    rw [List.flatMap_cons, literalChar, if_neg (Ne.symm h.1), ih h.2]
    rfl

theorem dropWhile_literalChars (s : List Char) : (s.flatMap literalChar).dropWhile Char.isDigit =
    (s.dropWhile Char.isDigit).flatMap literalChar := by
  induction s with
  | nil => rfl
  | cons d s ih =>
    by_cases hd : d.isDigit = true
    · have hd' : d ≠ '\'' := by rintro rfl; exact absurd hd (by decide)
      rw [List.flatMap_cons, literalChar, if_neg hd', List.singleton_append, List.dropWhile_cons_of_pos hd,
        List.dropWhile_cons_of_pos hd, ih]
    · rw [List.dropWhile_cons_of_neg hd, List.flatMap_cons, literalChar]
      split
      · exact List.dropWhile_cons_of_neg (by decide)
      · exact List.dropWhile_cons_of_neg hd

theorem literalChars_injective {s t : List Char} (h : s.flatMap literalChar = t.flatMap literalChar) : s = t := by
  induction s generalizing t with
  | nil =>
    cases t with
    | nil => rfl
    | cons d t =>
      rw [List.flatMap_nil, List.flatMap_cons, literalChar] at h
      split at h <;> cases h
  | cons c s ih =>
    cases t with
    | nil =>
      rw [List.flatMap_nil, List.flatMap_cons, literalChar] at h
      split at h <;> cases h
    | cons d t =>
      rw [List.flatMap_cons, List.flatMap_cons, literalChar, literalChar] at h
      split at h
      · next hc =>
        split at h
        · next hd =>
          rw [hc, hd, ih (List.append_cancel_left h)]
        · next hd => exact absurd (List.cons.inj h).1.symm hd
      · next hc =>
        split at h
        · next hd => exact absurd (List.cons.inj h).1 hc
        · obtain ⟨rfl, h'⟩ := List.cons.inj h
          rw [ih h']

theorem scanned_ascii {f : Quotes} {c : Char} (hc : c.toNat < 128) (hne : c ≠ '$') (s : List Char) :
    scanned f (c :: s) = (c :: (scanned (f.after c) s).1, (scanned (f.after c) s).2) := by
  rw [scanned_cons (startsPlaceholder_quote f hne s), byteChar_ascii hc]
  rfl

/-- Inside a literal the quotes stay in pairs. -/
theorem scanned_literal (f : Quotes) (s : List Char) :
    ∃ s' : List Char, (scanned f (s.flatMap literalChar)).1 = s'.flatMap literalChar := by
  induction hlen : s.length using Nat.strong_induction_on generalizing f s with
  | _ n ih =>
    cases s with
    | nil => exact ⟨[], rfl⟩
    | cons c s =>
      rw [List.length_cons] at hlen
      by_cases hc : c = '\''
      · subst hc
        obtain ⟨s', hs'⟩ := ih _ (by omega) f s rfl
        refine ⟨'\'' :: s', ?_⟩
        change (scanned f ('\'' :: '\'' :: s.flatMap literalChar)).1 = _
        rw [scanned_cons (startsPlaceholder_quote f (by decide) _), scanned_cons (startsPlaceholder_quote _ (by decide) _),
          after_quote_quote, hs']
        rfl
      · have hcons : (c :: s).flatMap literalChar = c :: s.flatMap literalChar := by
          rw [List.flatMap_cons, literalChar, if_neg hc]
          rfl
        rw [hcons]
        cases hstart : startsPlaceholder f c (s.flatMap literalChar) with
        | true =>
          have hle : (s.dropWhile Char.isDigit).length ≤ s.length := (List.dropWhile_suffix _).length_le
          obtain ⟨s', hs'⟩ := ih _ (by omega) f (s.dropWhile Char.isDigit) rfl
          refine ⟨'?' :: s', ?_⟩
          rw [scanned_placeholder hstart, dropWhile_literalChars, hs']
          rfl
        | false =>
          obtain ⟨s', hs'⟩ := ih _ (by omega) (f.after c) s rfl
          refine ⟨byteChar c ++ s', ?_⟩
          rw [scanned_cons hstart, hs', List.flatMap_append, literalChars_eq_self (not_mem_byteChar (by decide) hc)]

/-! ## Lexeme by lexeme -/

/-- A numbered placeholder as a positional one. -/
def positional : Tok → Tok
  | .numParam _ => .param
  | tok => tok

/-- The digits of a placeholder. -/
def numberOf : Lexeme → List (List Char)
  | .numParam digits => [digits]
  | _ => []

/-- The scanner reads the lexeme as the lexer does, with these quotes open. -/
def Agrees (f : Quotes) : Lexeme → Prop
  | .numParam _ => f.closed = true
  | .comment body => meets f (Lexeme.comment body).text = false
  | l => meets f l.text = false ∧ ∀ c ∈ l.text, c.toNat < 128

/-- What the scanner makes of a lexeme: one again, with the same token exactly when they agree. -/
structure Rewritten (f : Quotes) (l l' : Lexeme) : Prop where
  text : (scanned f l.text).1 = l'.text
  wellFormed : l'.WellFormed
  ends : ∀ g rest, l.Ends rest → l'.Ends (scanned g rest).1
  isSome : l'.token.isSome = l.token.isSome
  agrees : Agrees f l → l'.token = l.token.map positional ∧ (scanned f l.text).2 = numberOf l
  only : l'.token = l.token.map positional → (numberOf l).length ≤ (scanned f l.text).2.length ∧
    ((scanned f l.text).2.length ≤ (numberOf l).length → Agrees f l)

theorem meets_of_not_mem {s : List Char} (h : '$' ∉ s) (f : Quotes) : meets f s = false := by
  induction s generalizing f with
  | nil => rfl
  | cons c s ih =>
    rw [List.mem_cons, not_or] at h
    rw [meets, startsPlaceholder_quote f (Ne.symm h.1), ih h.2]
    rfl

theorem stops_scanned_ascii {p : Char → Bool} (hparam : p '$' = false → p '?' = false)
    (hhigh : ∀ d : Char, 128 ≤ d.toNat → p d = false) (f : Quotes) {s : List Char} (h : Stops p s) :
    Stops p (scanned f s).1 :=
  stops_scanned hparam (fun _ d _ hd _ => hhigh d hd) f h

/-- A character of the text that stands first in what is written, too. -/
theorem head_scanned {f : Quotes} {s : List Char} {d : Char} (hd : d.toNat < 128) (hparam : d ≠ '?')
    (h : (scanned f s).1.head? = some d) : ∃ t, s = d :: t ∧ (scanned f s).1 = d :: (scanned (f.after d) t).1 := by
  cases s with
  | nil => cases h
  | cons c s =>
    cases hstart : startsPlaceholder f c s with
    | true =>
      rw [scanned_placeholder hstart] at h
      exact absurd (Option.some.inj h).symm hparam
    | false =>
      rw [scanned_cons hstart] at h ⊢
      by_cases hc : c.toNat < 128
      · rw [byteChar_ascii hc] at h ⊢
        obtain rfl := Option.some.inj h
        exact ⟨s, rfl, rfl⟩
      · cases hbytes : byteChar c with
        | nil =>
          have hlen := length_byteChar c
          rw [hbytes] at hlen
          exact absurd hlen.symm (Char.utf8Size_pos c).ne'
        | cons e es =>
          rw [hbytes] at h
          obtain rfl := Option.some.inj h
          have := le_of_mem_byteChar (d := e) (by omega) (hbytes ▸ List.mem_cons_self)
          omega

theorem opEnds_scanned {tok : Tok} {rest : List Char} (h : Lexeme.opEnds rest tok) (f : Quotes) :
    Lexeme.opEnds (scanned f rest).1 tok := by
  have hstops : ∀ {c : Char}, c.toNat < 128 → (c ≠ '$' → c ≠ '?') → ∀ (g : Quotes) {s : List Char}, Stops (· == c) s →
      Stops (· == c) (scanned g s).1 := by
    intro c hc hne g s hs
    refine stops_scanned_ascii (fun hdollar => ?_) (fun d => beq_high hc) g hs
    exact beq_eq_false_iff_ne.2 (Ne.symm (hne (Ne.symm (beq_eq_false_iff_ne.1 hdollar))))
  cases tok with
  | minus =>
    refine stops_scanned_ascii (fun _ => rfl) (fun d hd => ?_) f h
    simp only [beq_high (c := '-') (by decide) hd, beq_high (c := '>') (by decide) hd, Bool.or_self]
  | arrow => exact hstops (by decide) (fun _ => by decide) f h
  | le => exact hstops (by decide) (fun _ => by decide) f h
  | gt => exact hstops (by decide) (fun _ => by decide) f h
  | lt =>
    obtain ⟨hhead, htail⟩ := lexLt_eq_lt.1 h
    refine lexLt_eq_lt.2 ⟨?_, fun hnext => ?_⟩
    · refine stops_scanned_ascii (fun _ => rfl) (fun d hd => ?_) f hhead
      simp only [beq_high (c := '=') (by decide) hd, beq_high (c := '>') (by decide) hd, Bool.or_self]
    · cases hd : (scanned f rest).1.head? with
      | none =>
        rw [hd] at hnext
        cases hnext
      | some d =>
        rw [hd] at hnext
        have hd' : d = '-' ∨ d = '#' := by simpa using hnext
        obtain ⟨t, rfl, hwritten⟩ := head_scanned (by rcases hd' with rfl | rfl <;> decide)
          (by rcases hd' with rfl | rfl <;> decide) hd
        rw [hwritten]
        exact hstops (by decide) (fun _ => by decide) _ (htail hnext)
  | _ => trivial

theorem ends_scanned {l : Lexeme} {rest : List Char} (h : l.Ends rest) (f : Quotes) : l.Ends (scanned f rest).1 := by
  cases l with
  | space c => trivial
  | comment body =>
    exact stops_scanned (p := (· != '\n')) (fun h => absurd h (by decide))
      (fun c d hc _ h => absurd h (by rw [bne, beq_high (by decide) hc]; simp)) f h
  | literal s => exact stops_scanned_ascii (p := (· == '\'')) (fun _ => rfl) (fun d => beq_high (by decide)) f h
  | quoted quote body => trivial
  | numParam digits => exact stops_scanned_ascii (p := Char.isDigit) (fun _ => rfl) (fun d => isDigit_high) f h
  | namedParam name => exact stops_scanned_ascii (p := isWordChar) (fun _ => rfl) (fun d => isWordChar_high) f h
  | word w => exact stops_scanned_ascii (p := isWordChar) (fun _ => rfl) (fun d => isWordChar_high) f h
  | number mantissa marker digits =>
    cases marker with
    | nil =>
      refine stops_scanned_ascii (fun _ => rfl) (fun d hd => ?_) f h
      simp only [isMantissaChar, isDigit_high hd, beq_high (c := '.') (by decide) hd, beq_high (c := 'e') (by decide) hd,
        beq_high (c := 'E') (by decide) hd, Bool.or_self]
    | cons m ms => exact stops_scanned_ascii (p := Char.isDigit) (fun _ => rfl) (fun d => isDigit_high) f h
  | op tok spelling => exact opEnds_scanned h f

/-- A lexeme that is written as it is. -/
theorem rewritten_plain {l : Lexeme} (hl : l.WellFormed) (hdollar : '$' ∉ l.text) (hascii : ∀ c ∈ l.text, c.toNat < 128)
    (hnumber : numberOf l = []) (htoken : l.token.map positional = l.token) (f : Quotes) : Rewritten f l l := by
  have hmeets := meets_of_not_mem hdollar f
  have hscan : scanned f l.text = (l.text, []) := by
    rw [scanned_of_not_meets hmeets, byteText_eq_self.2 hascii]
  refine ⟨by rw [hscan], hl, fun g rest h => ends_scanned h g, rfl, fun _ => ⟨htoken.symm, by rw [hscan, hnumber]⟩,
    fun _ => ⟨by rw [hnumber]; exact Nat.zero_le _, fun _ => ?_⟩⟩
  cases l with
  | numParam digits => cases hnumber
  | comment body => exact hmeets
  | _ => exact ⟨hmeets, hascii⟩

theorem rewritten_numParam {digits : List Char} (hl : (Lexeme.numParam digits).WellFormed) (f : Quotes) :
    ∃ l', Rewritten f (.numParam digits) l' := by
  obtain ⟨hne, hdigits, hlt⟩ := hl
  have hhead : digits.head?.any Char.isDigit = true := by
    obtain ⟨d, ds, rfl⟩ := List.exists_cons_of_ne_nil hne
    exact hdigits d List.mem_cons_self
  obtain ⟨htake, hdrop⟩ := takeWhile_append hdigits (stops_nil _)
  rw [List.append_nil] at htake hdrop
  cases hclosed : f.closed with
  | true =>
    have hstart : startsPlaceholder f '$' digits = true := by simp [startsPlaceholder, hclosed, hhead]
    have hscan : scanned f (Lexeme.numParam digits).text = (['?'], [digits]) := by
      rw [Lexeme.text, scanned_placeholder hstart, htake, hdrop]
      rfl
    refine ⟨.op .param ['?'], by rw [hscan]; rfl, by simp [Lexeme.WellFormed, operators], fun _ _ _ => trivial, rfl,
      fun _ => ⟨rfl, by rw [hscan]; rfl⟩, fun _ => ⟨by rw [hscan]; rfl, fun _ => hclosed⟩⟩
  | false =>
    have hdollar : '$' ∉ digits := fun hmem => absurd (hdigits _ hmem) (by decide)
    have hmeets : meets f (Lexeme.numParam digits).text = false := by
      rw [Lexeme.text, meets, meets_of_not_mem hdollar, startsPlaceholder, hclosed]
      rfl
    have hascii : ∀ c ∈ (Lexeme.numParam digits).text, c.toNat < 128 := by
      intro c hc
      rcases List.mem_cons.1 hc with rfl | hc
      · decide
      · by_contra hge
        have := hdigits c hc
        rw [isDigit_high (by omega)] at this
        cases this
    have hscan : scanned f (Lexeme.numParam digits).text = ((Lexeme.numParam digits).text, []) := by
      rw [scanned_of_not_meets hmeets, byteText_eq_self.2 hascii]
    refine ⟨.numParam digits, by rw [hscan], ⟨hne, hdigits, hlt⟩, fun g rest h => ends_scanned h g, rfl, fun h => ?_,
      fun h => ?_⟩
    · rw [Agrees, hclosed] at h
      cases h
    · cases h

theorem rewritten_comment {body : List Char} (hl : (Lexeme.comment body).WellFormed) (f : Quotes) :
    ∃ l', Rewritten f (.comment body) l' := by
  have hdash : f.after '-' = f := by
    rw [Quotes.after, if_neg (by simp), if_neg (by simp)]
  have hscan : scanned f (Lexeme.comment body).text = ('-' :: '-' :: (scanned f body).1, (scanned f body).2) := by
    rw [Lexeme.text, scanned_ascii (by decide) (by decide), hdash, scanned_ascii (by decide) (by decide), hdash]
  refine ⟨.comment (scanned f body).1, by rw [hscan]; rfl, fun hmem => hl (mem_of_mem_scanned (by decide) (by decide) f body hmem),
    fun g rest h => ends_scanned h g, rfl, fun h => ⟨rfl, ?_⟩, fun _ => ⟨Nat.zero_le _, fun h => ?_⟩⟩
  · rw [scanned_of_not_meets h]
    rfl
  · by_contra hyes
    have := (count_scanned f (Lexeme.comment body).text).2.2 (Bool.eq_true_of_not_eq_false hyes)
    exact this (List.length_eq_zero_iff.1 (Nat.le_zero.1 h))

theorem cut_of_stops {s rest : List Char} (h : Stops Char.isDigit rest) : Cut s rest := fun _ _ _ _ => h

theorem byteText_append (s t : List Char) : byteText (s ++ t) = byteText s ++ byteText t := List.flatMap_append

theorem count_byteText (s : List Char) : (byteText s).count '$' = s.count '$' := by
  induction s with
  | nil => rfl
  | cons c s ih =>
    have hcount : (c :: s).count '$' = [c].count '$' + s.count '$' := by
      rw [← List.count_append]
      rfl
    rw [hcount, ← count_byteChar (by decide), ← ih, ← List.count_append]
    rfl

/-- A text that holds its bytes is ASCII. -/
theorem ascii_of_byteText {s : List Char} (h : ∀ c ∈ byteText s, c.toNat < 128) : ∀ c ∈ s, c.toNat < 128 := by
  intro c hc
  by_contra hge
  obtain ⟨d, hd⟩ : ∃ d, d ∈ byteChar c := by
    apply List.exists_mem_of_length_pos
    rw [length_byteChar]
    exact Char.utf8Size_pos c
  have hlt := h d (List.mem_flatMap.2 ⟨c, hc, hd⟩)
  have hle := le_of_mem_byteChar (by omega) hd
  omega

theorem meets_append {f : Quotes} {s t : List Char} (hs : meets f s = false) (ht : meets (f.through s) t = false)
    (hcut : Stops Char.isDigit t) : meets f (s ++ t) = false := by
  induction s generalizing f with
  | nil => exact ht
  | cons c s ih =>
    rw [meets, Bool.or_eq_false_iff] at hs
    rw [List.cons_append, meets, Bool.or_eq_false_iff]
    refine ⟨?_, ih hs.2 ht⟩
    cases s with
    | cons d s => exact hs.1
    | nil =>
      rw [startsPlaceholder, List.nil_append, show t.head?.any Char.isDigit = false from hcut, Bool.and_false]

/-- A text between two quotes. -/
theorem scanned_between {q : Char} (hq : q.toNat < 128) (hdollar : q ≠ '$') (hdigit : q.isDigit = false) (f : Quotes)
    (body : List Char) : scanned f (q :: (body ++ [q])) =
      (q :: ((scanned (f.after q) body).1 ++ [q]), (scanned (f.after q) body).2) ∧
    meets f (q :: (body ++ [q])) = meets (f.after q) body := by
  have hcut : Stops Char.isDigit [q] := stops_cons.2 hdigit
  constructor
  · rw [scanned_ascii hq hdollar, scanned_append (cut_of_stops hcut), scanned_ascii hq hdollar]
    simp
  · rw [meets, startsPlaceholder_quote f hdollar, Bool.false_or]
    generalize f.after q = g
    induction body generalizing g with
    | nil =>
      rw [List.nil_append]
      exact meets_of_not_mem (by simpa using hdollar.symm) g
    | cons c body ih =>
      rw [List.cons_append, meets, meets, ih]
      congr 1
      cases body with
      | cons d body => rfl
      | nil => simp [startsPlaceholder, hdigit]

theorem byteText_literalChars (s : List Char) : byteText (s.flatMap literalChar) = (byteText s).flatMap literalChar := by
  induction s with
  | nil => rfl
  | cons c s ih =>
    have hcons : byteText (c :: s) = byteChar c ++ byteText s := rfl
    rw [List.flatMap_cons, byteText_append, ih, hcons, List.flatMap_append]
    congr 1
    by_cases hc : c = '\''
    · subst hc
      decide
    · rw [literalChar, if_neg hc, literalChars_eq_self (not_mem_byteChar (by decide) hc)]
      exact List.append_nil _

theorem count_literalChars (s : List Char) : (s.flatMap literalChar).count '$' = s.count '$' := by
  induction s with
  | nil => rfl
  | cons c s ih =>
    rw [List.flatMap_cons, List.count_append, ih, literalChar]
    split
    · next hc =>
      subst hc
      rw [List.count_cons_of_ne (by decide), List.count_cons_of_ne (by decide)]
      exact Nat.zero_add _
    · rw [← List.count_append]
      rfl

theorem rewritten_literal (s : List Char) (f : Quotes) : ∃ l', Rewritten f (.literal s) l' := by
  obtain ⟨hscan, hmeets⟩ := scanned_between (q := '\'') (by decide) (by decide) (by decide) f (s.flatMap literalChar)
  obtain ⟨s', hs'⟩ := scanned_literal (f.after '\'') s
  have htext : (Lexeme.literal s).text = '\'' :: (s.flatMap literalChar ++ ['\'']) := rfl
  refine ⟨.literal s', ?_, trivial, fun g rest h => ends_scanned h g, rfl, fun h => ?_, fun h => ⟨Nat.zero_le _, fun _ => ?_⟩⟩
  · rw [htext, hscan, hs']
    rfl
  · obtain ⟨hnone, hascii⟩ := h
    have hsame := scanned_of_not_meets hnone
    rw [byteText_eq_self.2 hascii, htext, hscan, hs', Prod.mk.injEq, List.cons.injEq] at hsame
    rw [literalChars_injective (List.append_cancel_right hsame.1.2), htext, hscan, hsame.2]
    exact ⟨rfl, rfl⟩
  · have hbytes : byteText s' = byteText s := by
      have hstr := Tok.str.inj (Option.some.inj h)
      exact String.ofList_injective hstr
    have hnone : meets (f.after '\'') (s.flatMap literalChar) = false := by
      by_contra hyes
      have hlt := (count_scanned (f.after '\'') (s.flatMap literalChar)).2.1 (Bool.eq_true_of_not_eq_false hyes)
      rw [hs', count_literalChars, count_literalChars, ← count_byteText s', hbytes, count_byteText] at hlt
      exact Nat.lt_irrefl _ hlt
    have hs'' : s' = byteText s := by
      apply literalChars_injective
      rw [← hs', scanned_of_not_meets hnone, byteText_literalChars]
    rw [hs''] at hbytes
    have hascii := ascii_of_byteText (byteText_eq_self.1 hbytes)
    refine ⟨by rw [htext, hmeets, hnone], fun c hc => ?_⟩
    rw [htext] at hc
    simp only [List.mem_cons, List.mem_append, List.mem_flatMap, List.not_mem_nil, or_false] at hc
    rcases hc with rfl | ⟨d, hd, hc⟩ | rfl
    · decide
    · rw [literalChar] at hc
      split at hc
      · simp only [List.mem_cons, List.not_mem_nil, or_false, or_self] at hc
        rw [hc]
        decide
      · rw [List.mem_singleton.1 hc]
        exact hascii d hd
    · decide

theorem rewritten_quoted {quote : Char} {body : List Char} (hl : (Lexeme.quoted quote body).WellFormed) (f : Quotes) :
    ∃ l', Rewritten f (.quoted quote body) l' := by
  obtain ⟨hquote, hbody⟩ := hl
  have hascii : quote.toNat < 128 := by rcases hquote with rfl | rfl <;> decide
  have hdollar : quote ≠ '$' := by rcases hquote with rfl | rfl <;> decide
  have hparam : quote ≠ '?' := by rcases hquote with rfl | rfl <;> decide
  obtain ⟨hscan, hmeets⟩ := scanned_between hascii hdollar (by rcases hquote with rfl | rfl <;> decide) f body
  have htext : (Lexeme.quoted quote body).text = quote :: (body ++ [quote]) := rfl
  refine ⟨.quoted quote (scanned (f.after quote) body).1, ?_, ⟨hquote, fun hmem => hbody (mem_of_mem_scanned hascii hparam _ _ hmem)⟩,
    fun g rest _ => trivial, rfl, fun h => ?_, fun h => ⟨Nat.zero_le _, fun _ => ?_⟩⟩
  · rw [htext, hscan]
    rfl
  · obtain ⟨hnone, hall⟩ := h
    have hsame := scanned_of_not_meets hnone
    rw [byteText_eq_self.2 hall, htext, hscan, Prod.mk.injEq, List.cons.injEq] at hsame
    rw [List.append_cancel_right hsame.1.2, htext, hscan, hsame.2]
    exact ⟨rfl, rfl⟩
  · have hsame : (scanned (f.after quote) body).1 = body := by
      have hword := Tok.word.inj (Option.some.inj h)
      exact String.ofList_injective hword
    have hnone : meets (f.after quote) body = false := by
      by_contra hyes
      have hlt := (count_scanned (f.after quote) body).2.1 (Bool.eq_true_of_not_eq_false hyes)
      rw [hsame] at hlt
      exact Nat.lt_irrefl _ hlt
    rw [scanned_of_not_meets hnone] at hsame
    have hall := byteText_eq_self.1 hsame
    refine ⟨by rw [htext, hmeets, hnone], fun c hc => ?_⟩
    rw [htext] at hc
    simp only [List.mem_cons, List.mem_append, List.not_mem_nil, or_false] at hc
    rcases hc with rfl | hc | rfl
    · exact hascii
    · exact hall c hc
    · exact hascii

theorem wordChar_plain {c : Char} (h : isWordChar c = true) : c ≠ '$' ∧ c.toNat < 128 := by
  constructor
  · rintro rfl
    exact absurd h (by decide)
  · by_contra hge
    rw [isWordChar_high (by omega)] at h
    cases h

/-- The characters of a number. -/
theorem number_plain {mantissa marker digits : List Char} (h : (Lexeme.number mantissa marker digits).WellFormed) :
    ∀ c ∈ (Lexeme.number mantissa marker digits).text, c ≠ '$' ∧ c.toNat < 128 := by
  obtain ⟨-, hmantissa, -, hexp⟩ := h
  have hdigit : ∀ c : Char, c.isDigit = true → c ≠ '$' ∧ c.toNat < 128 := fun c hc =>
    wordChar_plain (isWordChar_of_digit hc)
  intro c hc
  rcases List.mem_append.1 hc with hc | hc
  · rcases List.mem_append.1 hc with hc | hc
    · have hmc := hmantissa c hc
      rw [isMantissaChar, Bool.or_eq_true, beq_iff_eq] at hmc
      rcases hmc with hmc | rfl
      · exact hdigit c hmc
      · decide
    · rcases hexp with ⟨rfl, -⟩ | ⟨hmarker, -⟩
      · cases hc
      · have hall : ∀ m ∈ exponentMarkers, ∀ c ∈ m, c ≠ '$' ∧ c.toNat < 128 := by simp [exponentMarkers]
        exact hall marker hmarker c hc
  · rcases hexp with ⟨-, rfl⟩ | ⟨-, -, hdigits⟩
    · cases hc
    · exact hdigit c (hdigits c hc)

theorem operators_plain : ∀ o ∈ operators, positional o.1 = o.1 ∧ ∀ c ∈ o.2, c ≠ '$' ∧ c.toNat < 128 := by
  simp [operators, positional]

/-- The scanner writes a lexeme for each. -/
theorem rewritten_lexeme {l : Lexeme} (hl : l.WellFormed) (f : Quotes) : ∃ l', Rewritten f l l' := by
  have hplain : (∀ c ∈ l.text, c ≠ '$' ∧ c.toNat < 128) → numberOf l = [] → l.token.map positional = l.token →
      ∃ l', Rewritten f l l' := fun h hnumber htoken =>
    ⟨l, rewritten_plain hl (fun hmem => (h _ hmem).1 rfl) (fun c hc => (h c hc).2) hnumber htoken f⟩
  cases l with
  | comment body => exact rewritten_comment hl f
  | literal s => exact rewritten_literal s f
  | quoted quote body => exact rewritten_quoted hl f
  | numParam digits => exact rewritten_numParam hl f
  | space c =>
    refine hplain (fun d hd => ?_) rfl rfl
    obtain rfl := List.mem_singleton.1 hd
    have hspace : isAsciiWhitespace d = true := hl
    simp only [isAsciiWhitespace, Bool.or_eq_true, beq_iff_eq] at hspace
    rcases hspace with (((rfl | rfl) | rfl) | rfl) | rfl <;> decide
  | namedParam name =>
    refine hplain (fun c hc => ?_) rfl rfl
    rcases List.mem_cons.1 hc with rfl | hc
    · decide
    · exact wordChar_plain (hl.2 c hc)
  | word w => exact hplain (fun c hc => wordChar_plain (hl.2 c hc)) rfl rfl
  | number mantissa marker digits =>
    refine hplain (number_plain hl) rfl ?_
    rw [Lexeme.token, Option.map_some, Lexeme.numberToken]
    split
    · rfl
    · split
      · rfl
      · split <;> rfl
  | op tok spelling =>
    refine hplain (operators_plain _ hl).2 rfl ?_
    rw [Lexeme.token, Option.map_some, (operators_plain _ hl).1]

/-- A lexeme is cut from the text where it ends. -/
theorem cut_lexeme {l : Lexeme} {rest : List Char} (hl : l.WellFormed) (hends : l.Ends rest) : Cut l.text rest := by
  have hdollar : '$' ∉ l.text → Cut l.text rest := by
    rintro hno u ds hs -
    exact absurd (by rw [hs]; simp) hno
  have hlast : ∀ q : Char, q.isDigit = false → q ≠ '$' → l.text.getLast? = some q → Cut l.text rest := by
    intro q hdigit hne hq u ds hs hds
    rw [hs, List.getLast?_append, List.getLast?_cons] at hq
    obtain rfl : ds.getLast?.getD '$' = q := by simpa using hq
    cases hd : ds.getLast? with
    | none =>
      rw [hd] at hne
      exact absurd rfl hne
    | some d =>
      rw [hd, Option.getD_some, hds d (List.mem_of_getLast? hd)] at hdigit
      cases hdigit
  cases l with
  | comment body =>
    refine cut_of_stops ?_
    cases rest with
    | nil => rfl
    | cons c rest =>
      obtain rfl : c = '\n' := by simpa using stops_cons.1 hends
      exact stops_cons.2 (by decide)
  | numParam digits => exact cut_of_stops hends
  | literal s =>
    refine hlast '\'' (by decide) (by decide) ?_
    rw [Lexeme.text, literal, ← List.cons_append, List.getLast?_append]
    rfl
  | quoted quote body =>
    refine hlast quote (by rcases hl.1 with rfl | rfl <;> decide) (by rcases hl.1 with rfl | rfl <;> decide) ?_
    rw [Lexeme.text, ← List.cons_append, List.getLast?_append]
    rfl
  | space c =>
    refine hdollar fun hmem => ?_
    obtain rfl := List.mem_singleton.1 hmem
    exact absurd (show isAsciiWhitespace '$' = true from hl) (by decide)
  | namedParam name =>
    refine hdollar fun hmem => ?_
    rcases List.mem_cons.1 hmem with hc | hc
    · cases hc
    · exact absurd (hl.2 _ hc) (by decide)
  | word w => exact hdollar fun hmem => absurd (hl.2 _ hmem) (by decide)
  | number mantissa marker digits => exact hdollar fun hmem => (number_plain hl _ hmem).1 rfl
  | op tok spelling => exact hdollar fun hmem => ((operators_plain _ hl).2 _ hmem).1 rfl

/-! ## Whole texts -/

/-- The digits of the placeholders. -/
def numbersOf (ls : List Lexeme) : List (List Char) := ls.flatMap numberOf

/-- The scanner agrees with the lexer on each lexeme, with the quotes that are open there. -/
def AgreesFrom (f : Quotes) : List Lexeme → Prop
  | [] => True
  | l :: ls => Agrees f l ∧ AgreesFrom (f.through l.text) ls

theorem numberOf_digits {l : Lexeme} (hl : l.WellFormed) : ∀ ds ∈ numberOf l, decimal ds < 2 ^ 64 := by
  cases l with
  | numParam digits =>
    intro ds hds
    rw [List.mem_singleton.1 hds]
    exact hl.2.2
  | _ => exact fun _ h => nomatch h

theorem toList_map_positional (tok : Option Tok) : (tok.map positional).toList = tok.toList.map positional := by
  cases tok <;> rfl

/-- What the scanner writes for a chain of lexemes is another, with the same tokens and numbers
exactly when they agree. -/
theorem scanned_chain {ls : List Lexeme} (h : Chain ls) (f : Quotes) : ∃ ls', Chain ls' ∧
    (scanned f (texts ls)).1 = texts ls' ∧
    (AgreesFrom f ls → tokens ls' = (tokens ls).map positional ∧ (scanned f (texts ls)).2 = numbersOf ls) ∧
    (tokens ls' = (tokens ls).map positional → (numbersOf ls).length ≤ (scanned f (texts ls)).2.length ∧
      ((scanned f (texts ls)).2.length ≤ (numbersOf ls).length → AgreesFrom f ls)) := by
  induction ls generalizing f with
  | nil => exact ⟨[], trivial, rfl, fun _ => ⟨rfl, rfl⟩, fun _ => ⟨Nat.zero_le _, fun _ => trivial⟩⟩
  | cons l ls ih =>
    obtain ⟨hl, hends, hls⟩ := h
    obtain ⟨l', hl'⟩ := rewritten_lexeme hl f
    obtain ⟨ls', hchain, htexts, hagrees, honly⟩ := ih hls (f.through l.text)
    rw [texts_cons, scanned_append (cut_lexeme hl hends)]
    have hnumbers : numbersOf (l :: ls) = numberOf l ++ numbersOf ls := rfl
    refine ⟨l' :: ls', ⟨hl'.wellFormed, ?_, hchain⟩, ?_, fun h => ?_, fun h => ?_⟩
    · rw [← htexts]
      exact hl'.ends _ _ hends
    · rw [hl'.text, htexts, texts_cons]
    · obtain ⟨htoken, hnumber⟩ := hl'.agrees h.1
      obtain ⟨htokens, hrest⟩ := hagrees h.2
      rw [tokens_cons, tokens_cons, htoken, htokens, toList_map_positional, List.map_append, hnumber, hrest]
      exact ⟨rfl, rfl⟩
    · rw [tokens_cons, tokens_cons, List.map_append, ← toList_map_positional] at h
      have hlen : l'.token.toList.length = (l.token.map positional).toList.length := by
        have := hl'.isSome
        cases h₁ : l'.token <;> cases h₂ : l.token <;> simp_all
      obtain ⟨htoken, htokens⟩ := List.append_inj h hlen
      have htoken : l'.token = l.token.map positional := by
        cases h₁ : l'.token <;> cases h₂ : l.token <;> simp_all
      obtain ⟨hle, hagree⟩ := hl'.only htoken
      obtain ⟨hle', hagree'⟩ := honly htokens
      rw [hnumbers, List.length_append, List.length_append]
      exact ⟨by omega, fun h => ⟨hagree (by omega), hagree' (by omega)⟩⟩

/-! ## The values of the placeholders -/

/-- The indices the parser gives to the placeholders, which it reads in text order. -/
def placeholders : List Tok → Numbering → List Nat × Numbering
  | [], s => ([], s)
  | tok :: toks, s => match SqlParser.paramIndex tok with
    | none => placeholders toks s
    | some index =>
      let (i, s) := index s
      let (is, s) := placeholders toks s
      (i :: is, s)

/-- The values the placeholders of a statement are evaluated to when some are bound, as `boundArgs` binds them. -/
def placeholderValues (toks : List Tok) (values : List Value) : List (Option Value) :=
  let (is, s) := placeholders toks {}
  is.map fun i => (values ++ List.replicate (s.maxParam - values.length) .null)[i - 1]?

def numbered : Tok → Option Nat
  | .numParam n => some n
  | _ => none

theorem paramIndex_eq_none {tok : Tok} (h : SqlParser.paramIndex tok = none) :
    numbered tok = none ∧ positional tok = tok := by
  cases tok <;> first | exact ⟨rfl, rfl⟩ | cases h

/-- The placeholders are all numbered, from one on. -/
def AllNumbered (toks : List Tok) : Prop :=
  ∀ tok ∈ toks, (SqlParser.paramIndex tok).isSome = true → ∃ n, 1 ≤ n ∧ tok = .numParam n

theorem placeholders_numbered {toks : List Tok} (h : AllNumbered toks) (s : Numbering) :
    (placeholders toks s).1 = toks.filterMap numbered ∧
      s.maxParam ≤ (placeholders toks s).2.maxParam ∧
      ∀ n ∈ toks.filterMap numbered, 1 ≤ n ∧ n ≤ (placeholders toks s).2.maxParam := by
  induction toks generalizing s with
  | nil => exact ⟨rfl, Nat.le_refl _, fun _ h => nomatch h⟩
  | cons tok toks ih =>
    have htail : AllNumbered toks := fun t ht => h t (List.mem_cons_of_mem tok ht)
    cases hindex : SqlParser.paramIndex tok with
    | none =>
      rw [placeholders, hindex, List.filterMap_cons, (paramIndex_eq_none hindex).1]
      exact ih htail s
    | some index =>
      obtain ⟨n, hn, rfl⟩ := h tok List.mem_cons_self (by rw [hindex]; rfl)
      obtain ⟨hfst, hle, hall⟩ := ih htail (SqlParser.Numbering.seen s n)
      have hmax : s.maxParam ≤ max s.maxParam n ∧ n ≤ max s.maxParam n := ⟨Nat.le_max_left _ _, Nat.le_max_right _ _⟩
      refine ⟨congrArg (n :: ·) hfst, hmax.1.trans hle, fun m hm => ?_⟩
      rcases List.mem_cons.1 hm with rfl | hm
      · exact ⟨hn, hmax.2.trans hle⟩
      · exact hall m hm

theorem placeholders_positional {toks : List Tok} (h : AllNumbered toks) (s : Numbering) (hs : s.maxParam + 1 = s.nextParam) :
    (placeholders (toks.map positional) s).1 = List.range' s.nextParam (toks.filterMap numbered).length ∧
      (placeholders (toks.map positional) s).2.maxParam = s.maxParam + (toks.filterMap numbered).length := by
  induction toks generalizing s with
  | nil => exact ⟨rfl, rfl⟩
  | cons tok toks ih =>
    have htail : AllNumbered toks := fun t ht => h t (List.mem_cons_of_mem tok ht)
    cases hindex : SqlParser.paramIndex tok with
    | none =>
      obtain ⟨hnumbered, hpositional⟩ := paramIndex_eq_none hindex
      rw [List.map_cons, hpositional, placeholders, hindex, List.filterMap_cons, hnumbered]
      exact ih htail s hs
    | some index =>
      obtain ⟨n, hn, rfl⟩ := h tok List.mem_cons_self (by rw [hindex]; rfl)
      have hmax : max s.maxParam s.nextParam = s.nextParam := by omega
      obtain ⟨hfst, hsnd⟩ := ih htail (SqlParser.Numbering.seen { s with nextParam := s.nextParam + 1 } s.nextParam)
        (by change max s.maxParam s.nextParam + 1 = s.nextParam + 1; rw [hmax])
      have hlen : ((Tok.numParam n :: toks).filterMap numbered).length = (toks.filterMap numbered).length + 1 := rfl
      rw [hlen, List.range'_succ]
      refine ⟨congrArg (s.nextParam :: ·) hfst, hsnd.trans ?_⟩
      change max s.maxParam s.nextParam + _ = _
      omega

/-- The values bound in order are those of the numbers. -/
theorem placeholderValues_eq {toks : List Tok} (h : AllNumbered toks) (params : List Value) :
    placeholderValues (toks.map positional) ((toks.filterMap numbered).map (wireParam params)) =
      placeholderValues toks params := by
  obtain ⟨hfst, -, hall⟩ := placeholders_numbered h {}
  obtain ⟨hfst', hsnd'⟩ := placeholders_positional h {} rfl
  unfold placeholderValues
  dsimp only
  rw [hfst, hfst', hsnd']
  obtain ⟨ns, hns⟩ : ∃ ns, ns = toks.filterMap numbered := ⟨_, rfl⟩
  rw [← hns] at hall ⊢
  apply List.ext_getElem
  · rw [List.length_map, List.length_map, List.length_range']
  · intro i hi hi'
    rw [List.length_map, List.length_range'] at hi
    have hbound := hall ns[i] (List.getElem_mem hi)
    have hpos : ns[i] ≠ 0 := by omega
    rw [List.getElem_map, List.getElem_map, List.getElem_range', List.length_map, Nat.zero_add, Nat.sub_self,
      List.replicate_zero, List.append_nil, show 1 + 1 * i - 1 = i by omega, List.getElem?_map, List.getElem?_eq_getElem hi,
      Option.map_some, wireParam, if_neg hpos]
    by_cases hlt : ns[i] - 1 < params.length
    · rw [List.getElem?_append_left hlt, List.getElem?_eq_getElem hlt]
      rfl
    · rw [List.getElem?_append_right (by omega), List.getElem?_replicate_of_lt (by omega), List.getElem?_eq_none (by omega)]
      rfl

/-! ## Rewriting and the lexer -/

/-- The rewritten text has the tokens of the text, with its placeholders made positional; their
numbers come in text order, none of them overflows, and every placeholder has the value it had. -/
structure FaithfulRewrite (s : List Char) (toks : List Tok) : Prop where
  tokens : lex (rewritePlaceholders s).1 = .ok (toks.map positional)
  order : (rewritePlaceholders s).2 = toks.filterMap numbered
  fits : ∀ ds ∈ (scanned (false, false) s).2, decimal ds < 2 ^ 64
  values : ∀ params, placeholderValues (toks.map positional) ((rewritePlaceholders s).2.map (wireParam params)) =
    placeholderValues toks params

theorem filterMap_numbered {ls : List Lexeme} (h : Chain ls) : (tokens ls).filterMap numbered = (numbersOf ls).map decimal := by
  induction ls with
  | nil => rfl
  | cons l ls ih =>
    have hnumbers : numbersOf (l :: ls) = numberOf l ++ numbersOf ls := rfl
    rw [tokens_cons, List.filterMap_append, ih h.2.2, hnumbers, List.map_append]
    congr 1
    cases l with
    | number mantissa marker digits =>
      rw [Lexeme.token, Lexeme.numberToken]
      split
      · rfl
      · split
        · rfl
        · split <;> rfl
    | op tok spelling =>
      have hnone : ∀ o ∈ operators, numbered o.1 = none := by simp [operators, numbered]
      change [tok].filterMap numbered = []
      rw [List.filterMap_cons, hnone _ h.1]
      rfl
    | _ => rfl

theorem mod_numbers {ls : List Lexeme} (h : Chain ls) : (∀ ds ∈ numbersOf ls, decimal ds < 2 ^ 64) ∧
    (numbersOf ls).map (fun ds => decimal ds % 2 ^ 64) = (numbersOf ls).map decimal := by
  have hlt : ∀ ds ∈ numbersOf ls, decimal ds < 2 ^ 64 := by
    induction ls with
    | nil => exact fun _ h => nomatch h
    | cons l ls ih =>
      intro ds hds
      rcases List.mem_append.1 (show ds ∈ numberOf l ++ numbersOf ls from hds) with hds | hds
      · exact numberOf_digits h.1 ds hds
      · exact ih h.2.2 ds hds
  exact ⟨hlt, List.map_congr_left fun ds hds => Nat.mod_eq_of_lt (hlt ds hds)⟩

/-- **Placeholder rewriting is faithful exactly when the scanner's quotes agree with the lexer's**
at each `$n`, and the literals and quoted identifiers are ASCII. -/
theorem rewrite_faithful_iff {s : List Char} {toks : List Tok} (h : lex s = .ok toks) (hnumbered : AllNumbered toks) :
    FaithfulRewrite s toks ↔ ∃ ls, Chain ls ∧ s = texts ls ∧ AgreesFrom (false, false) ls := by
  constructor
  · intro hfaithful
    obtain ⟨ls, hls, rfl, rfl⟩ := lex_eq_ok.1 h
    obtain ⟨ls', hls', htexts, -, honly⟩ := scanned_chain hls (false, false)
    refine ⟨ls, hls, rfl, ?_⟩
    have htokens : tokens ls' = (tokens ls).map positional := by
      have hlex := hfaithful.tokens
      rw [rewritePlaceholders_eq, htexts, lex_texts hls', List.map_append] at hlex
      exact List.append_cancel_right (Except.ok.inj hlex)
    refine (honly htokens).2 (Nat.le_of_eq ?_)
    have horder := congrArg List.length hfaithful.order
    rw [rewritePlaceholders_eq, List.filterMap_append, filterMap_numbered hls, List.length_append, List.length_map,
      List.length_map] at horder
    exact horder
  · rintro ⟨ls, hls, rfl, hagrees⟩
    obtain ⟨ls', hls', htexts, hsame, -⟩ := scanned_chain hls (false, false)
    obtain ⟨htokens, hnumbers⟩ := hsame hagrees
    obtain rfl := Except.ok.inj (h.symm.trans (lex_texts hls))
    obtain ⟨hlt, hmod⟩ := mod_numbers hls
    have horder : (rewritePlaceholders (texts ls)).2 = (tokens ls ++ [Tok.eof]).filterMap numbered := by
      rw [rewritePlaceholders_eq, hnumbers, hmod, List.filterMap_append, filterMap_numbered hls]
      exact (List.append_nil _).symm
    refine ⟨?_, horder, fun ds hds => hlt ds (hnumbers ▸ hds), fun params => ?_⟩
    · rw [rewritePlaceholders_eq, htexts, lex_texts hls', htokens, List.map_append]
      rfl
    · rw [horder]
      exact placeholderValues_eq hnumbered params

/-- A placeholder inside and one outside a literal with a doubled quote. -/
theorem rewrite_faithful_iff_quotes :
    FaithfulRewrite "SELECT 'it''s $1', $2".toList [.word "SELECT", .str "it's $1", .comma, .numParam 2, .eof] ↔
      ∃ ls, Chain ls ∧ "SELECT 'it''s $1', $2".toList = texts ls ∧ AgreesFrom (false, false) ls :=
  rewrite_faithful_iff (by decide) (by simp [AllNumbered, SqlParser.paramIndex])

/-- The apostrophe of a comment hides the placeholders after it. -/
theorem rewrite_unfaithful_comment :
    lex "SELECT $1 -- it's\n+ $2".toList = .ok [.word "SELECT", .numParam 1, .plus, .numParam 2, .eof] ∧
    AllNumbered [.word "SELECT", .numParam 1, .plus, .numParam 2, .eof] ∧
    ¬FaithfulRewrite "SELECT $1 -- it's\n+ $2".toList [.word "SELECT", .numParam 1, .plus, .numParam 2, .eof] := by
  refine ⟨by decide, by simp [AllNumbered, SqlParser.paramIndex], fun h => ?_⟩
  have horder : (rewritePlaceholders "SELECT $1 -- it's\n+ $2".toList).2 = [1] := by decide
  have := h.order
  rw [horder] at this
  exact absurd this (by decide)

end Twill.Server
