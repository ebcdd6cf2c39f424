/-
The lexemes of SQL text: the pieces of text that one turn of the lexer takes.

A text lexes exactly when it is a chain of lexemes, each of which ends where the next begins,
and its tokens are theirs. So what scans the same text in another way is compared with the lexer
lexeme by lexeme.
-/
import Twill.LexFacts
import Twill.StringLiterals

namespace Twill

/-- A piece of text that the lexer takes in one turn. -/
inductive Lexeme where
  | space (c : Char)
  /-- After the dashes, up to the end of the line. -/
  | comment (body : List Char)
  | literal (s : List Char)
  /-- A quoted identifier, or one in backticks. -/
  | quoted (quote : Char) (body : List Char)
  | numParam (digits : List Char)
  | namedParam (name : List Char)
  /-- A mantissa, what marks its exponent, and the digits of that. -/
  | number (mantissa marker digits : List Char)
  | word (w : List Char)
  | op (tok : Tok) (spelling : List Char)
  deriving DecidableEq, Repr

/-- The operators and how they are spelled. -/
def operators : List (Tok × List Char) :=
  [(.lParen, ['(']), (.rParen, [')']), (.lBracket, ['[']), (.rBracket, [']']), (.comma, [',']), (.semi, [';']),
    (.dot, ['.']), (.star, ['*']), (.plus, ['+']), (.minus, ['-']), (.slash, ['/']), (.percent, ['%']),
    (.param, ['?']), (.eq, ['=']), (.arrowText, ['-', '>', '>']), (.arrow, ['-', '>']), (.vecL2, ['<', '-', '>']),
    (.vecCosine, ['<', '=', '>']), (.vecIp, ['<', '#', '>']), (.le, ['<', '=']), (.ne, ['<', '>']), (.lt, ['<']),
    (.ge, ['>', '=']), (.gt, ['>']), (.ne, ['!', '=']), (.concat, ['|', '|']), (.dColon, [':', ':'])]

/-- What marks an exponent. -/
def exponentMarkers : List (List Char) := [['e', '+'], ['e', '-'], ['E', '+'], ['E', '-'], ['e'], ['E']]

def isMantissaChar (c : Char) : Bool := c.isDigit || c == '.'

def isWordStart (c : Char) : Bool := c == '_' || c.isAlpha

/-- The text ends, or does not go on with such a character. -/
def Stops (p : Char → Bool) (rest : List Char) : Prop := rest.head?.any p = false

instance {p : Char → Bool} {rest : List Char} : Decidable (Stops p rest) := inferInstanceAs (Decidable (_ = _))

namespace Lexeme

def text : Lexeme → List Char
  | space c => [c]
  | comment body => '-' :: '-' :: body
  | literal s => Twill.literal s
  | quoted quote body => quote :: (body ++ [quote])
  | numParam digits => '$' :: digits
  | namedParam name => ':' :: name
  | number mantissa marker digits => mantissa ++ marker ++ digits
  | word w => w
  | op _ spelling => spelling

def numberToken (mantissa marker digits : List Char) : Tok :=
  if marker ≠ [] then .real (String.ofList (mantissa ++ marker ++ digits))
  else if mantissa.contains '.' then .real (String.ofList mantissa)
  else if decimal mantissa < 2 ^ 63 then .int (Int64.ofNat (decimal mantissa))
  else .real (String.ofList mantissa)

def token : Lexeme → Option Tok
  | space _ | comment _ => none
  | literal s => some (.str (String.ofList (byteText s)))
  | quoted _ body => some (.word (String.ofList body))
  | numParam digits => some (.numParam (decimal digits))
  | namedParam name => some (.namedParam (String.ofList name))
  | number mantissa marker digits => some (numberToken mantissa marker digits)
  | word w => some (.word (String.ofList w))
  | op tok _ => some tok

/-- What makes a piece of text a lexeme of its kind. -/
def WellFormed : Lexeme → Prop
  | space c => isAsciiWhitespace c = true
  | comment body => '\n' ∉ body
  | literal _ => True
  | quoted quote body => (quote = '"' ∨ quote = '\x60') ∧ quote ∉ body
  | numParam digits => digits ≠ [] ∧ (∀ c ∈ digits, c.isDigit = true) ∧ decimal digits < 2 ^ 64
  | namedParam name => name ≠ [] ∧ ∀ c ∈ name, isWordChar c = true
  | number mantissa marker digits => mantissa.head?.any Char.isDigit = true ∧ (∀ c ∈ mantissa, isMantissaChar c = true) ∧
      mantissa.count '.' ≤ 1 ∧ (marker = [] ∧ digits = [] ∨
        marker ∈ exponentMarkers ∧ digits ≠ [] ∧ ∀ c ∈ digits, c.isDigit = true)
  | word w => w.head?.any isWordStart = true ∧ ∀ c ∈ w, isWordChar c = true
  | op tok spelling => (tok, spelling) ∈ operators

/-- The operators that more characters would make another operator, or a comment. -/
def opEnds (rest : List Char) : Tok → Prop
  | .minus => Stops (fun c => c == '-' || c == '>') rest
  | .arrow | .le => Stops (· == '>') rest
  | .lt => lexLt rest = (.lt, rest)
  | .gt => Stops (· == '=') rest
  | _ => True

/-- The lexeme ends before this text. -/
def Ends (rest : List Char) : Lexeme → Prop
  | comment _ => Stops (· != '\n') rest
  | literal _ => Stops (· == '\'') rest
  | numParam _ => Stops Char.isDigit rest
  | namedParam _ | word _ => Stops isWordChar rest
  | number _ [] _ => Stops (fun c => isMantissaChar c || c == 'e' || c == 'E') rest
  | number _ (_ :: _) _ => Stops Char.isDigit rest
  | op tok _ => opEnds rest tok
  | _ => True

end Lexeme

open Lexeme

/-- The text of some lexemes. -/
def texts (ls : List Lexeme) : List Char := ls.flatMap text

/-- The tokens of some lexemes. -/
def tokens (ls : List Lexeme) : List Tok := ls.filterMap token

/-- Lexemes each of which ends where the next begins. -/
def Chain : List Lexeme → Prop
  | [] => True
  | l :: ls => l.WellFormed ∧ l.Ends (texts ls) ∧ Chain ls

@[simp] theorem texts_cons (l : Lexeme) (ls : List Lexeme) : texts (l :: ls) = l.text ++ texts ls := rfl

/-! ## Runs of characters -/

theorem stops_nil (p : Char → Bool) : Stops p [] := rfl

theorem stops_cons {p : Char → Bool} {c : Char} {rest : List Char} : Stops p (c :: rest) ↔ p c = false := by
  simp [Stops]

theorem stops_dropWhile (p : Char → Bool) (s : List Char) : Stops p (s.dropWhile p) := by
  unfold Stops
  cases h : (s.dropWhile p).head? with
  | none => rfl
  | some c =>
    have := List.head?_dropWhile_not p s
    rw [h] at this
    simpa using this

theorem takeWhile_append {p : Char → Bool} {w rest : List Char} (hw : ∀ c ∈ w, p c = true) (hrest : Stops p rest) :
    (w ++ rest).takeWhile p = w ∧ (w ++ rest).dropWhile p = rest := by
  rw [List.takeWhile_append_of_pos hw, List.dropWhile_append_of_pos hw]
  cases rest with
  | nil => simp
  | cons c rest => simp [stops_cons.1 hrest]

/-! ## Characters beyond ASCII -/

theorem isAlphanum_high {d : Char} (h : 128 ≤ d.toNat) : d.isAlphanum = false := by
  cases hd : d.isAlphanum with
  | false => rfl
  | true =>
    simp only [Char.isAlphanum, Char.isAlpha, Char.isUpper, Char.isLower, Char.isDigit, Bool.or_eq_true, Bool.and_eq_true,
      decide_eq_true_eq, UInt32.le_iff_toNat_le, ge_iff_le] at hd
    simp at hd
    omega

theorem isWordChar_high {d : Char} (h : 128 ≤ d.toNat) : isWordChar d = false := by
  rw [isWordChar, isAlphanum_high h, Bool.or_false, beq_eq_false_iff_ne]
  rintro rfl
  exact absurd h (by decide)

theorem isDigit_high {d : Char} (h : 128 ≤ d.toNat) : d.isDigit = false := by
  have := isAlphanum_high h
  rw [Char.isAlphanum, Bool.or_eq_false_iff] at this
  exact this.2

theorem beq_high {c d : Char} (hc : c.toNat < 128) (h : 128 ≤ d.toNat) : (d == c) = false := by
  rw [beq_eq_false_iff_ne]
  rintro rfl
  omega

/-! ## The text of a lexeme is lexed -/

theorem lexOne_longer {c : Char} {rest : List Char} (hspace : isAsciiWhitespace c = false) (hdash : c ≠ '-')
    (hsimple : simpleToken c = none) : lexOne c rest = (lexLonger c rest).map fun r => (some r.1, r.2) := by
  unfold lexOne
  rw [if_neg (by simp [hspace]), if_neg (fun h => hdash h.1), if_neg (fun h => hdash h.1), hsimple]

theorem simpleToken_wordChar {c : Char} (h : isWordChar c = true) : simpleToken c = none := by
  unfold simpleToken
  split <;> first | rfl | exact absurd h (by decide)

theorem isWordChar_of_start {c : Char} (h : isWordStart c = true) : isWordChar c = true := by
  simp only [isWordStart, isWordChar, Char.isAlphanum, Bool.or_eq_true] at h ⊢
  tauto

theorem isWordChar_of_digit {c : Char} (h : c.isDigit = true) : isWordChar c = true := by
  simp [isWordChar, Char.isAlphanum, h]

/-- A character of a word starts no lexeme of another kind. -/
theorem lexOne_wordChar {c : Char} {rest : List Char} (h : isWordChar c = true) : lexOne c rest =
    (if c.isDigit = true then lexNumber (c :: rest) else .ok (lexWord (c :: rest))).map fun r => (some r.1, r.2) := by
  have hne : ∀ d, isWordChar d = false → c ≠ d := by
    rintro d hd rfl
    rw [h] at hd
    cases hd
  have hspace : isAsciiWhitespace c = false := by
    cases hs : isAsciiWhitespace c with
    | false => rfl
    | true => exact absurd (isWhitespace_of_ascii hs) (by simp [not_isWhitespace_of_isWordChar h])
  rw [lexOne_longer hspace (hne _ (by decide)) (simpleToken_wordChar h)]
  congr 1
  unfold lexLonger
  rw [if_neg (hne '<' (by decide)), if_neg (hne '>' (by decide)), if_neg (hne '!' (by decide)), if_neg (hne '|' (by decide)),
    if_neg (hne ':' (by decide)), if_neg (hne '$' (by decide)), if_neg (hne '\'' (by decide)), if_neg (hne '"' (by decide)),
    if_neg (hne '\x60' (by decide))]
  split
  · rfl
  · next hdigit =>
    have hstart : (c == '_' || c.isAlpha) = true := by
      simp only [isWordChar, Char.isAlphanum, Bool.or_eq_true] at h ⊢
      tauto
    rw [if_pos hstart]

theorem lexOne_word {c : Char} {w rest : List Char} (hstart : isWordStart c = true) (hw : ∀ d ∈ c :: w, isWordChar d = true)
    (hrest : Stops isWordChar rest) : lexOne c (w ++ rest) = .ok (some (.word (String.ofList (c :: w))), rest) := by
  obtain ⟨htake, hdrop⟩ := takeWhile_append hw hrest
  have hdigit : ¬c.isDigit = true := by
    intro hd
    have hn := hstart
    simp only [isWordStart, Bool.or_eq_true, beq_iff_eq] at hn
    rcases hn with rfl | hn
    · exact absurd hd (by decide)
    · simp only [Char.isAlpha, Char.isUpper, Char.isLower, Char.isDigit, Bool.or_eq_true, Bool.and_eq_true,
        decide_eq_true_eq, UInt32.le_iff_toNat_le, ge_iff_le] at hn hd
      simp at hn hd
      omega
  rw [lexOne_wordChar (isWordChar_of_start hstart), if_neg hdigit, lexWord, ← List.cons_append, htake, hdrop]
  rfl

theorem lexOne_numParam {digits rest : List Char} (hne : digits ≠ []) (hdigits : ∀ c ∈ digits, c.isDigit = true)
    (hlt : decimal digits < 2 ^ 64) (hrest : Stops Char.isDigit rest) :
    lexOne '$' (digits ++ rest) = .ok (some (.numParam (decimal digits)), rest) := by
  obtain ⟨htake, hdrop⟩ := takeWhile_append hdigits hrest
  have hlonger : lexLonger '$' (digits ++ rest) = .ok (.numParam (decimal digits), rest) := by
    simp only [lexLonger, Char.reduceEq, if_false, if_true, lexNumparam, htake, hdrop, List.isEmpty_iff, hne, hlt]
  rw [lexOne_longer (by decide) (by decide) (by decide), hlonger]
  rfl

theorem lexOne_namedParam {name rest : List Char} (hne : name ≠ []) (hname : ∀ c ∈ name, isWordChar c = true)
    (hrest : Stops isWordChar rest) :
    lexOne ':' (name ++ rest) = .ok (some (.namedParam (String.ofList name)), rest) := by
  obtain ⟨htake, hdrop⟩ := takeWhile_append hname hrest
  have hcolon : lexColon (name ++ rest) = .ok (.namedParam (String.ofList name), rest) := by
    obtain ⟨c, name', rfl⟩ := List.exists_cons_of_ne_nil hne
    have hc : c ≠ ':' := by
      rintro rfl
      exact absurd (hname ':' List.mem_cons_self) (by decide)
    rw [List.cons_append] at htake hdrop ⊢
    unfold lexColon
    split
    · next heq => exact absurd (List.cons.inj heq).1 hc
    · rw [htake, hdrop]
      rfl
  have hlonger : lexLonger ':' (name ++ rest) = .ok (.namedParam (String.ofList name), rest) := by
    simp only [lexLonger, Char.reduceEq, if_false, if_true, hcolon]
  rw [lexOne_longer (by decide) (by decide) (by decide), hlonger]
  rfl

theorem lexQuoted_body {quote : Char} (message : String) {body : List Char} (hbody : quote ∉ body) (rest : List Char) :
    lexQuoted quote message (body ++ quote :: rest) = .ok (.word (String.ofList body), rest) := by
  have hall : ∀ c ∈ body, (c != quote) = true := fun c hc => by
    rw [bne_iff_ne]
    rintro rfl
    exact hbody hc
  have hstops : Stops (fun c => c != quote) (quote :: rest) := stops_cons.2 (by simp)
  obtain ⟨htake, hdrop⟩ := takeWhile_append hall hstops
  rw [lexQuoted, htake, hdrop]

theorem lexOne_quoted {quote : Char} (hquote : quote = '"' ∨ quote = '\x60') {body : List Char} (hbody : quote ∉ body)
    (rest : List Char) : lexOne quote (body ++ quote :: rest) = .ok (some (.word (String.ofList body)), rest) := by
  rcases hquote with rfl | rfl
  · have hlonger : lexLonger '"' (body ++ '"' :: rest) = .ok (.word (String.ofList body), rest) := by
      simp only [lexLonger, Char.reduceEq, if_false, if_true, lexQuoted_body _ hbody]
    rw [lexOne_longer (by decide) (by decide) (by decide), hlonger]
    rfl
  · have hlonger : lexLonger '\x60' (body ++ '\x60' :: rest) = .ok (.word (String.ofList body), rest) := by
      simp only [lexLonger, Char.reduceEq, if_false, if_true, lexQuoted_body _ hbody]
    rw [lexOne_longer (by decide) (by decide) (by decide), hlonger]
    rfl

theorem isReal_digits {mantissa d : List Char} (hcount : mantissa.count '.' ≤ 1) (hne : d ≠ []) :
    isReal mantissa d = true := by
  simp [isReal, hcount, hne]

/-- A number with an exponent. -/
theorem lexNumber_scaled {mantissa marker digits rest : List Char} (hmantissa : ∀ c ∈ mantissa, isMantissaChar c = true)
    (hcount : mantissa.count '.' ≤ 1) (hmarker : marker ∈ exponentMarkers) (hne : digits ≠ [])
    (hdigits : ∀ c ∈ digits, c.isDigit = true) (hrest : Stops Char.isDigit rest) :
    lexNumber (mantissa ++ (marker ++ (digits ++ rest))) =
      .ok (.real (String.ofList (mantissa ++ marker ++ digits)), rest) := by
  obtain ⟨htake, hdrop⟩ := takeWhile_append hdigits hrest
  have hreal := isReal_digits hcount hne
  have hstops : Stops isMantissaChar (marker ++ (digits ++ rest)) := by
    simp only [exponentMarkers, List.mem_cons, List.not_mem_nil, or_false] at hmarker
    rcases hmarker with rfl | rfl | rfl | rfl | rfl | rfl <;> exact stops_cons.2 (by decide)
  obtain ⟨htake', hdrop'⟩ := takeWhile_append hmantissa hstops
  have htake' : (mantissa ++ (marker ++ (digits ++ rest))).takeWhile (fun c => c.isDigit || c == '.') = mantissa := htake'
  have hdrop' : (mantissa ++ (marker ++ (digits ++ rest))).dropWhile (fun c => c.isDigit || c == '.') =
      marker ++ (digits ++ rest) := hdrop'
  unfold lexNumber
  rw [htake', hdrop']
  simp only [exponentMarkers, List.mem_cons, List.not_mem_nil, or_false] at hmarker
  obtain ⟨d, digits, rfl⟩ := List.exists_cons_of_ne_nil hne
  have hd := hdigits d List.mem_cons_self
  have hplus : d ≠ '+' := by rintro rfl; exact absurd hd (by decide)
  have hminus : d ≠ '-' := by rintro rfl; exact absurd hd (by decide)
  rw [List.cons_append] at htake hdrop
  rcases hmarker with rfl | rfl | rfl | rfl | rfl | rfl
  all_goals simp only [List.cons_append, List.nil_append]
  iterate 4 rw [htake, hdrop, if_pos hreal]; simp only [List.append_assoc, List.cons_append, List.nil_append]
  all_goals
    split
    all_goals first
      | next heq => obtain ⟨-, rfl⟩ := List.cons.inj heq; rw [htake, hdrop, if_pos hreal]
      | next heq => simp [hplus, hminus] at heq; done
      | next he _ => exact (he _ rfl).elim

/-- A number without one. -/
theorem lexNumber_plain {mantissa rest : List Char} (hmantissa : ∀ c ∈ mantissa, isMantissaChar c = true)
    (hcount : mantissa.count '.' ≤ 1) (hrest : Stops (fun c => isMantissaChar c || c == 'e' || c == 'E') rest) :
    lexNumber (mantissa ++ rest) = .ok (numberToken mantissa [] [], rest) := by
  have hstops : Stops isMantissaChar rest := by
    cases rest with
    | nil => rfl
    | cons c rest =>
      have := stops_cons.1 hrest
      simp only [Bool.or_eq_false_iff] at this
      exact stops_cons.2 this.1.1
  obtain ⟨htake, hdrop⟩ := takeWhile_append hmantissa hstops
  have htake : (mantissa ++ rest).takeWhile (fun c => c.isDigit || c == '.') = mantissa := htake
  have hdrop : (mantissa ++ rest).dropWhile (fun c => c.isDigit || c == '.') = rest := hdrop
  have hreal := isReal_digits (d := ['0']) hcount (by simp)
  unfold lexNumber
  rw [htake, hdrop]
  dsimp only
  split
  all_goals first | exact absurd (stops_cons.1 hrest) (by simp) | skip
  have hplain : numberToken mantissa [] [] = if mantissa.contains '.' = true then .real (String.ofList mantissa)
      else if decimal mantissa < 2 ^ 63 then .int (Int64.ofNat (decimal mantissa))
      else .real (String.ofList mantissa) := if_neg (by simp)
  rw [hplain, if_pos hreal]
  split
  · rfl
  · split <;> rfl

/-- The first character is a digit of the number. -/
theorem lexOne_number {c : Char} {s : List Char} {r : Tok × List Char} (hc : c.isDigit = true)
    (h : lexNumber (c :: s) = .ok r) : lexOne c s = .ok (some r.1, r.2) := by
  rw [lexOne_wordChar (isWordChar_of_digit hc), if_pos hc, h]
  rfl

theorem stops_head {p : Char → Bool} {rest : List Char} (h : Stops p rest) {c : Char} (hc : p c = true) :
    rest.head? ≠ some c := by
  intro heq
  rw [Stops, heq] at h
  rw [Option.any_some, hc] at h
  cases h

theorem lexOne_minus {rest : List Char} (h : Stops (fun c => c == '-' || c == '>') rest) :
    lexOne '-' rest = .ok (some .minus, rest) := by
  unfold lexOne
  rw [if_neg (by decide), if_neg (fun hh => stops_head h rfl hh.2), if_neg (fun hh => stops_head h rfl hh.2)]
  rfl

theorem lexOne_arrow {rest : List Char} (h : Stops (· == '>') rest) :
    lexOne '-' ('>' :: rest) = .ok (some .arrow, rest) := by
  unfold lexOne
  rw [if_neg (by decide), if_neg (by simp), if_pos ⟨rfl, rfl⟩, List.tail_cons, if_neg (stops_head h rfl)]

theorem lexOne_lt {rest rest' : List Char} {tok : Tok} (h : lexLt rest = (tok, rest')) :
    lexOne '<' rest = .ok (some tok, rest') := by
  have hlonger : lexLonger '<' rest = .ok (lexLt rest) := rfl
  rw [lexOne_longer (by decide) (by decide) (by decide), hlonger, h]
  rfl

theorem lexLt_le {rest : List Char} (h : Stops (· == '>') rest) : lexLt ('=' :: rest) = (.le, rest) := by
  unfold lexLt
  split <;> simp_all [Stops]

/-- A `<` that more characters do not make another operator. -/
theorem lexLt_eq_lt {rest : List Char} : lexLt rest = (.lt, rest) ↔ Stops (fun c => c == '=' || c == '>') rest ∧
    (rest.head?.any (fun c => c == '-' || c == '#') = true → Stops (· == '>') rest.tail) := by
  unfold lexLt
  split <;> simp_all [Stops]
  next h₁ h₂ h₃ h₄ h₅ =>
    cases rest with
    | nil => simp
    | cons c rest =>
      cases rest with
      | nil => simp_all
      | cons d rest => simp_all; grind

theorem lexOne_gt {rest : List Char} (h : Stops (· == '=') rest) : lexOne '>' rest = .ok (some .gt, rest) := by
  have hlonger : lexLonger '>' rest = .ok (lexGt rest) := rfl
  have hgt : lexGt rest = (.gt, rest) := by
    unfold lexGt
    split <;> simp_all [Stops]
  rw [lexOne_longer (by decide) (by decide) (by decide), hlonger, hgt]
  rfl

theorem lexOne_op {tok : Tok} {spelling rest : List Char} (h : (tok, spelling) ∈ operators) (hrest : opEnds rest tok) :
    ∃ c t, spelling = c :: t ∧ lexOne c (t ++ rest) = .ok (some tok, rest) := by
  simp only [operators, List.mem_cons, Prod.mk.injEq, List.not_mem_nil, or_false] at h
  rcases h with ⟨rfl, rfl⟩ | ⟨rfl, rfl⟩ | ⟨rfl, rfl⟩ | ⟨rfl, rfl⟩ | ⟨rfl, rfl⟩ | ⟨rfl, rfl⟩ | ⟨rfl, rfl⟩ | ⟨rfl, rfl⟩ |
    ⟨rfl, rfl⟩ | ⟨rfl, rfl⟩ | ⟨rfl, rfl⟩ | ⟨rfl, rfl⟩ | ⟨rfl, rfl⟩ | ⟨rfl, rfl⟩ | ⟨rfl, rfl⟩ | ⟨rfl, rfl⟩ | ⟨rfl, rfl⟩ |
    ⟨rfl, rfl⟩ | ⟨rfl, rfl⟩ | ⟨rfl, rfl⟩ | ⟨rfl, rfl⟩ | ⟨rfl, rfl⟩ | ⟨rfl, rfl⟩ | ⟨rfl, rfl⟩ | ⟨rfl, rfl⟩ | ⟨rfl, rfl⟩ |
    ⟨rfl, rfl⟩ <;> refine ⟨_, _, rfl, ?_⟩
  -- all but the operators that have longer forms are read off
  all_goals first
    | rfl
    | exact lexOne_minus hrest
    | exact lexOne_arrow hrest
    | exact lexOne_lt (lexLt_le hrest)
    | exact lexOne_lt hrest
    | exact lexOne_gt hrest

/-- A lexeme that ends where the text goes on is what the lexer takes. -/
theorem lexOne_text {l : Lexeme} {rest : List Char} (hl : l.WellFormed) (hrest : l.Ends rest) :
    ∃ c t, l.text = c :: t ∧ lexOne c (t ++ rest) = .ok (l.token, rest) := by
  cases l with
  | space c => exact ⟨c, [], rfl, if_pos hl⟩
  | comment body =>
    refine ⟨'-', '-' :: body, rfl, ?_⟩
    have hbody : ∀ c ∈ body, (c != '\n') = true := fun c hc => by
      rw [bne_iff_ne]
      rintro rfl
      exact hl hc
    have hdrop : ('-' :: body ++ rest).dropWhile (fun c => c != '\n') = rest :=
      (takeWhile_append (w := '-' :: body) (by simpa using hbody) hrest).2
    unfold lexOne
    rw [if_neg (by decide), if_pos ⟨rfl, rfl⟩, hdrop]
    rfl
  | literal s =>
    refine ⟨'\'', _, rfl, ?_⟩
    rw [List.append_assoc]
    exact lexOne_literal s rest (stops_head hrest rfl)
  | quoted quote body =>
    refine ⟨quote, _, rfl, ?_⟩
    rw [List.append_assoc]
    exact lexOne_quoted hl.1 hl.2 rest
  | numParam digits => exact ⟨'$', digits, rfl, lexOne_numParam hl.1 hl.2.1 hl.2.2 hrest⟩
  | namedParam name => exact ⟨':', name, rfl, lexOne_namedParam hl.1 hl.2 hrest⟩
  | number mantissa marker digits =>
    obtain ⟨hhead, hmantissa, hcount, hexp⟩ := hl
    cases mantissa with
    | nil => cases hhead
    | cons c mantissa =>
      refine ⟨c, mantissa ++ marker ++ digits, rfl, ?_⟩
      rcases hexp with ⟨rfl, rfl⟩ | ⟨hmarker, hne, hdigits⟩
      · refine lexOne_number hhead (r := (numberToken (c :: mantissa) [] [], rest)) ?_
        rw [List.append_nil, List.append_nil]
        exact lexNumber_plain hmantissa hcount hrest
      · obtain ⟨m, marker, rfl⟩ : ∃ m ms, marker = m :: ms := by
          cases marker with
          | nil => exact absurd hmarker (by decide)
          | cons m ms => exact ⟨m, ms, rfl⟩
        refine lexOne_number hhead (r := (numberToken (c :: mantissa) (m :: marker) digits, rest)) ?_
        have := lexNumber_scaled hmantissa hcount hmarker hne hdigits hrest
        rw [List.append_assoc, List.append_assoc, numberToken, if_pos (by simp)]
        exact this
  | word w =>
    cases w with
    | nil => cases hl.1
    | cons c w => exact ⟨c, w, rfl, lexOne_word hl.1 hl.2 hrest⟩
  | op tok spelling => exact lexOne_op hl hrest

/-! ## What is lexed is the text of a lexeme -/

/-- The lexer took this lexeme of the text and left the rest. -/
structure Taken (s : List Char) (tok : Option Tok) (rest : List Char) (l : Lexeme) : Prop where
  wellFormed : l.WellFormed
  text : s = l.text ++ rest
  ends : l.Ends rest
  token : l.token = tok

theorem takes_op (tok : Tok) (spelling : List Char) {rest : List Char} (h : (tok, spelling) ∈ operators) (hends : opEnds rest tok) :
    ∃ l, Taken (spelling ++ rest) (some tok) rest l :=
  ⟨.op tok spelling, h, rfl, hends, rfl⟩

theorem takes_quoted {quote : Char} (hquote : quote = '"' ∨ quote = '\x60') {message : String} {s : List Char}
    {r : Tok × List Char} (h : lexQuoted quote message s = .ok r) : ∃ l, Taken (quote :: s) (some r.1) r.2 l := by
  unfold lexQuoted at h
  split at h
  · cases h
  · next d rest hdrop =>
    obtain rfl := Except.ok.inj h
    have hd : d = quote := by
      have hstops := stops_dropWhile (fun c => c != quote) s
      rw [hdrop] at hstops
      simpa using stops_cons.1 hstops
    subst hd
    refine ⟨.quoted d (s.takeWhile fun c => c != d), ⟨hquote, ?_⟩, ?_, trivial, rfl⟩
    · intro hmem
      simpa using List.mem_takeWhile_imp hmem
    · have hsplit : s.takeWhile (fun c => c != d) ++ d :: rest = s := by
        rw [← hdrop]
        exact List.takeWhile_append_dropWhile
      rw [Lexeme.text, List.cons_append, List.append_assoc, List.singleton_append, hsplit]

theorem takes_string {s : List Char} {r : List Char × List Char} (h : lexString s = some r) :
    ∃ body, s = body.flatMap literalChar ++ '\'' :: r.2 ∧ r.1 = byteText body ∧ Stops (· == '\'') r.2 := by
  fun_induction lexString s generalizing r with
  | case1 => cases h
  | case2 rest ih =>
    obtain ⟨r', h', rfl⟩ := Option.map_eq_some_iff.1 h
    obtain ⟨body, rfl, hr, hstop⟩ := ih h'
    exact ⟨'\'' :: body, by simp [literalChar], by simp [hr, byteText, byteChar_ascii (show ('\'').toNat < 128 by decide)], hstop⟩
  | case3 rest hno =>
    obtain rfl := Option.some.inj h
    refine ⟨[], rfl, rfl, ?_⟩
    cases rest with
    | nil => rfl
    | cons d rest =>
      rw [stops_cons, beq_eq_false_iff_ne]
      rintro rfl
      exact hno rest rfl
  | case4 c rest hno hc ih =>
    obtain ⟨r', h', rfl⟩ := Option.map_eq_some_iff.1 h
    obtain ⟨body, rfl, hr, hstop⟩ := ih h'
    exact ⟨c :: body, by rw [List.flatMap_cons, literalChar, if_neg hc]; rfl, by rw [hr]; rfl, hstop⟩

theorem takes_numparam {s : List Char} {r : Tok × List Char} (h : lexNumparam s = .ok r) :
    ∃ l, Taken ('$' :: s) (some r.1) r.2 l := by
  unfold lexNumparam at h
  dsimp only at h
  split at h
  · cases h
  · next hne =>
    split at h
    · next hlt =>
      obtain rfl := Except.ok.inj h
      refine ⟨.numParam (s.takeWhile Char.isDigit), ⟨by simpa using hne, fun c hc => List.mem_takeWhile_imp hc, hlt⟩, ?_,
        stops_dropWhile _ s, rfl⟩
      exact congrArg ('$' :: ·) List.takeWhile_append_dropWhile.symm
    · cases h

theorem takes_colon {s : List Char} {r : Tok × List Char} (h : lexColon s = .ok r) :
    ∃ l, Taken (':' :: s) (some r.1) r.2 l := by
  unfold lexColon at h
  split at h
  · obtain rfl := Except.ok.inj h
    exact takes_op .dColon [':', ':'] (by decide) trivial
  · dsimp only at h
    split at h
    · cases h
    · next hne =>
      obtain rfl := Except.ok.inj h
      refine ⟨.namedParam (s.takeWhile isWordChar), ⟨by simpa using hne, fun c hc => List.mem_takeWhile_imp hc⟩, ?_,
        stops_dropWhile _ s, rfl⟩
      exact congrArg (':' :: ·) List.takeWhile_append_dropWhile.symm

theorem takes_lt (s : List Char) : ∃ l, Taken ('<' :: s) (some (lexLt s).1) (lexLt s).2 l := by
  unfold lexLt
  split
  · exact takes_op .vecL2 ['<', '-', '>'] (by decide) trivial
  · exact takes_op .vecCosine ['<', '=', '>'] (by decide) trivial
  · exact takes_op .vecIp ['<', '#', '>'] (by decide) trivial
  · next rest hno =>
    refine takes_op .le ['<', '='] (by decide) ?_
    cases rest with
    | nil => rfl
    | cons d rest =>
      refine stops_cons.2 (beq_eq_false_iff_ne.2 ?_)
      rintro rfl
      exact hno rest rfl
  · exact takes_op .ne ['<', '>'] (by decide) trivial
  · next h₁ h₂ h₃ h₄ h₅ =>
    refine takes_op .lt ['<'] (by decide) ?_
    dsimp only [opEnds]
    unfold lexLt
    split <;> simp_all

theorem takes_gt (s : List Char) : ∃ l, Taken ('>' :: s) (some (lexGt s).1) (lexGt s).2 l := by
  unfold lexGt
  split
  · exact takes_op .ge ['>', '='] (by decide) trivial
  · next hno =>
    refine takes_op .gt ['>'] (by decide) ?_
    cases s with
    | nil => rfl
    | cons d rest =>
      refine stops_cons.2 (beq_eq_false_iff_ne.2 ?_)
      rintro rfl
      exact hno rest rfl

theorem takes_bang {s : List Char} {r : Tok × List Char} (h : lexBang s = .ok r) :
    ∃ l, Taken ('!' :: s) (some r.1) r.2 l := by
  unfold lexBang at h
  split at h
  · obtain rfl := Except.ok.inj h
    exact takes_op .ne ['!', '='] (by decide) trivial
  · cases h

theorem takes_pipe {s : List Char} {r : Tok × List Char} (h : lexPipe s = .ok r) :
    ∃ l, Taken ('|' :: s) (some r.1) r.2 l := by
  unfold lexPipe at h
  split at h
  · obtain rfl := Except.ok.inj h
    exact takes_op .concat ['|', '|'] (by decide) trivial
  · cases h

theorem takes_simple {c : Char} {tok : Tok} (h : simpleToken c = some tok) {rest : List Char}
    (hdash : c = '-' → Stops (fun d => d == '-' || d == '>') rest) : ∃ l, Taken (c :: rest) (some tok) rest l := by
  have hop : (tok, [c]) ∈ operators := by
    unfold simpleToken at h
    split at h <;> cases h
    all_goals decide
  refine takes_op tok [c] hop ?_
  unfold simpleToken at h
  split at h <;> cases h
  all_goals first | trivial | exact hdash rfl

theorem takes_word {c : Char} {s : List Char} (hc : isWordStart c = true) :
    ∃ l, Taken (c :: s) (some (lexWord (c :: s)).1) (lexWord (c :: s)).2 l := by
  have hword := isWordChar_of_start hc
  refine ⟨.word ((c :: s).takeWhile isWordChar), ⟨?_, fun d hd => List.mem_takeWhile_imp hd⟩,
    List.takeWhile_append_dropWhile.symm, stops_dropWhile _ _, rfl⟩
  rw [List.takeWhile_cons_of_pos hword]
  exact hc

/-! ### Numbers -/

theorem takes_scaled {mantissa s : List Char} (marker : List Char) {r : Tok × List Char} (hhead : mantissa.head?.any Char.isDigit = true)
    (hmantissa : ∀ c ∈ mantissa, isMantissaChar c = true) (hmarker : marker ∈ exponentMarkers)
    (h : (if isReal mantissa (s.takeWhile Char.isDigit) then
      .ok (.real (String.ofList (mantissa ++ marker ++ s.takeWhile Char.isDigit)), s.dropWhile Char.isDigit)
      else .error (EngineError.sql "bad number") : Lexed) = .ok r) :
    ∃ l, Taken (mantissa ++ (marker ++ s)) (some r.1) r.2 l := by
  split at h
  · next hreal =>
    obtain rfl := Except.ok.inj h
    simp only [isReal, Bool.and_eq_true, decide_eq_true_eq, Bool.not_eq_true', List.isEmpty_eq_false_iff] at hreal
    refine ⟨.number mantissa marker (s.takeWhile Char.isDigit), ⟨hhead, hmantissa, hreal.1, .inr ⟨hmarker, hreal.2,
      fun c hc => List.mem_takeWhile_imp hc⟩⟩, ?_, ?_, ?_⟩
    · simp [Lexeme.text, List.takeWhile_append_dropWhile]
    · cases marker with
      | nil => exact absurd hmarker (by decide)
      | cons m ms => exact stops_dropWhile _ s
    · rw [Lexeme.token, numberToken, if_pos]
      rintro rfl
      exact absurd hmarker (by decide)
  · cases h

theorem takes_number {c : Char} {s : List Char} (hc : c.isDigit = true) {r : Tok × List Char}
    (h : lexNumber (c :: s) = .ok r) : ∃ l, Taken (c :: s) (some r.1) r.2 l := by
  obtain ⟨mantissa, hmantissa⟩ : ∃ m, m = (c :: s).takeWhile isMantissaChar := ⟨_, rfl⟩
  obtain ⟨rest, hrest⟩ : ∃ m, m = (c :: s).dropWhile isMantissaChar := ⟨_, rfl⟩
  have htext : c :: s = mantissa ++ rest := by
    rw [hmantissa, hrest]
    exact List.takeWhile_append_dropWhile.symm
  have hstops : Stops isMantissaChar rest := hrest ▸ stops_dropWhile _ _
  have hall : ∀ d ∈ mantissa, isMantissaChar d = true := fun d hd => List.mem_takeWhile_imp (hmantissa ▸ hd)
  have hhead : mantissa.head?.any Char.isDigit = true := by
    rw [hmantissa, List.takeWhile_cons_of_pos (by simp [isMantissaChar, hc])]
    exact hc
  have hmantissa' : (c :: s).takeWhile (fun c => c.isDigit || c == '.') = mantissa := hmantissa.symm
  have hrest' : (c :: s).dropWhile (fun c => c.isDigit || c == '.') = rest := hrest.symm
  unfold lexNumber at h
  rw [hmantissa', hrest'] at h
  rw [htext]
  clear hmantissa hrest hmantissa' hrest' htext
  dsimp only at h
  split at h
  · exact takes_scaled ['e', '+'] hhead hall (by decide) h
  · exact takes_scaled ['e', '-'] hhead hall (by decide) h
  · exact takes_scaled ['E', '+'] hhead hall (by decide) h
  · exact takes_scaled ['E', '-'] hhead hall (by decide) h
  · exact takes_scaled ['e'] hhead hall (by decide) h
  · exact takes_scaled ['E'] hhead hall (by decide) h
  · next he hE =>
    have hends : Stops (fun c => isMantissaChar c || c == 'e' || c == 'E') rest := by
      cases rest with
      | nil => rfl
      | cons d rest =>
        rw [stops_cons] at hstops ⊢
        simp only [hstops, Bool.false_or, Bool.or_eq_false_iff, beq_eq_false_iff_ne]
        constructor <;> rintro rfl
        · exact he _ rfl
        · exact hE _ rfl
    have hplain : ∀ {rest' : List Char} {tok : Tok}, mantissa.count '.' ≤ 1 → tok = numberToken mantissa [] [] → rest' = rest →
        ∃ l, Taken (mantissa ++ rest) (some tok) rest' l := by
      rintro _ _ hcount rfl rfl
      exact ⟨.number mantissa [] [], ⟨hhead, hall, hcount, .inl ⟨rfl, rfl⟩⟩, by simp [Lexeme.text], hends, rfl⟩
    have htok : numberToken mantissa [] [] = if mantissa.contains '.' = true then .real (String.ofList mantissa)
        else if decimal mantissa < 2 ^ 63 then .int (Int64.ofNat (decimal mantissa))
        else .real (String.ofList mantissa) := if_neg (by simp)
    have hcount : isReal mantissa ['0'] = true → mantissa.count '.' ≤ 1 := by
      simp [isReal]
    split at h
    · next hdot =>
      split at h
      · next hreal =>
        obtain rfl := Except.ok.inj h
        exact hplain (hcount hreal) (by rw [htok, if_pos hdot]) rfl
      · cases h
    · next hdot =>
      have hnone : mantissa.count '.' ≤ 1 := by
        rw [List.count_eq_zero.2 (by simpa using hdot)]
        exact Nat.zero_le 1
      split at h
      · next hlt =>
        obtain rfl := Except.ok.inj h
        exact hplain hnone (by rw [htok, if_neg hdot, if_pos hlt]) rfl
      · next hlt =>
        split at h
        · obtain rfl := Except.ok.inj h
          exact hplain hnone (by rw [htok, if_neg hdot, if_neg hlt]) rfl
        · cases h

theorem takes_longer {c : Char} {s : List Char} {r : Tok × List Char} (h : lexLonger c s = .ok r) :
    ∃ l, Taken (c :: s) (some r.1) r.2 l := by
  unfold lexLonger at h
  by_cases hlt : c = '<'
  · rw [if_pos hlt] at h
    obtain rfl := Except.ok.inj h
    exact hlt ▸ takes_lt s
  rw [if_neg hlt] at h
  by_cases hgt : c = '>'
  · rw [if_pos hgt] at h
    obtain rfl := Except.ok.inj h
    exact hgt ▸ takes_gt s
  rw [if_neg hgt] at h
  by_cases hbang : c = '!'
  · rw [if_pos hbang] at h
    exact hbang ▸ takes_bang h
  rw [if_neg hbang] at h
  by_cases hpipe : c = '|'
  · rw [if_pos hpipe] at h
    exact hpipe ▸ takes_pipe h
  rw [if_neg hpipe] at h
  by_cases hcolon : c = ':'
  · rw [if_pos hcolon] at h
    exact hcolon ▸ takes_colon h
  rw [if_neg hcolon] at h
  by_cases hdollar : c = '$'
  · rw [if_pos hdollar] at h
    exact hdollar ▸ takes_numparam h
  rw [if_neg hdollar] at h
  by_cases hquote : c = '\''
  · rw [if_pos hquote] at h
    subst hquote
    split at h
    · next body rest hstring =>
      obtain rfl := Except.ok.inj h
      obtain ⟨s', rfl, rfl, hstop⟩ := takes_string hstring
      exact ⟨.literal s', trivial, by simp [Lexeme.text, literal], hstop, rfl⟩
    · cases h
  rw [if_neg hquote] at h
  by_cases hdouble : c = '"'
  · rw [if_pos hdouble] at h
    exact hdouble ▸ takes_quoted (.inl rfl) h
  rw [if_neg hdouble] at h
  by_cases htick : c = '\x60'
  · rw [if_pos htick] at h
    exact htick ▸ takes_quoted (.inr rfl) h
  rw [if_neg htick] at h
  by_cases hdigit : c.isDigit = true
  · rw [if_pos hdigit] at h
    exact takes_number hdigit h
  rw [if_neg hdigit] at h
  by_cases halpha : (c == '_' || c.isAlpha) = true
  · rw [if_pos halpha] at h
    obtain rfl := Except.ok.inj h
    exact takes_word halpha
  · rw [if_neg halpha] at h
    cases h

/-- What one turn of the lexer takes is a lexeme. -/
theorem takes_of_lexOne {c : Char} {s rest : List Char} {tok : Option Tok} (h : lexOne c s = .ok (tok, rest)) :
    ∃ l, Taken (c :: s) tok rest l := by
  unfold lexOne at h
  split at h
  · next hspace =>
    obtain ⟨rfl, rfl⟩ := Prod.mk.inj (Except.ok.inj h)
    exact ⟨.space c, hspace, rfl, trivial, rfl⟩
  split at h
  · next hcomment =>
    obtain ⟨rfl, hhead⟩ := hcomment
    obtain ⟨rfl, rfl⟩ := Prod.mk.inj (Except.ok.inj h)
    obtain ⟨s, rfl⟩ : ∃ t, s = '-' :: t := List.head?_eq_some_iff.1 hhead
    refine ⟨.comment (s.takeWhile fun c => c != '\n'), ?_, ?_, stops_dropWhile _ _, rfl⟩
    · intro hmem
      simpa using List.mem_takeWhile_imp hmem
    · rw [List.dropWhile_cons_of_pos (by decide), Lexeme.text, List.cons_append, List.cons_append,
        List.takeWhile_append_dropWhile]
  split at h
  · next harrow =>
    obtain ⟨rfl, hhead⟩ := harrow
    obtain ⟨s, rfl⟩ : ∃ t, s = '>' :: t := List.head?_eq_some_iff.1 hhead
    rw [List.tail_cons] at h
    split at h
    · next htext =>
      obtain ⟨s, rfl⟩ : ∃ t, s = '>' :: t := List.head?_eq_some_iff.1 htext
      obtain ⟨rfl, rfl⟩ := Prod.mk.inj (Except.ok.inj h)
      exact takes_op .arrowText ['-', '>', '>'] (by decide) trivial
    · next htext =>
      obtain ⟨rfl, rfl⟩ := Prod.mk.inj (Except.ok.inj h)
      refine takes_op .arrow ['-', '>'] (by decide) ?_
      cases s with
      | nil => rfl
      | cons d s => exact stops_cons.2 (beq_eq_false_iff_ne.2 fun hd => htext (by rw [hd]; rfl))
  · next hcomment harrow =>
    split at h
    · next tok' hsimple =>
      obtain ⟨rfl, rfl⟩ := Prod.mk.inj (Except.ok.inj h)
      refine takes_simple hsimple ?_
      rintro rfl
      cases s with
      | nil => rfl
      | cons d s =>
        rw [stops_cons, Bool.or_eq_false_iff, beq_eq_false_iff_ne, beq_eq_false_iff_ne]
        exact ⟨fun hd => hcomment ⟨rfl, by rw [hd]; rfl⟩, fun hd => harrow ⟨rfl, by rw [hd]; rfl⟩⟩
    · cases hlonger : lexLonger c s with
      | error e =>
        rw [hlonger] at h
        cases h
      | ok r =>
        rw [hlonger] at h
        obtain ⟨rfl, rfl⟩ := Prod.mk.inj (Except.ok.inj h)
        exact takes_longer hlonger

/-! ## Where lexemes end -/

theorem stops_of_append {p : Char → Bool} {s t : List Char} (h : Stops p (s ++ t)) : Stops p s := by
  cases s with
  | nil => rfl
  | cons c s => exact stops_cons.2 (stops_cons.1 h)

theorem lexLt_prefix {s t : List Char} (h : lexLt (s ++ t) = (.lt, s ++ t)) : lexLt s = (.lt, s) := by
  obtain ⟨hhead, htail⟩ := lexLt_eq_lt.1 h
  cases s with
  | nil => rfl
  | cons c s => exact lexLt_eq_lt.2 ⟨stops_of_append (s := c :: s) hhead, fun hc => stops_of_append (htail hc)⟩

/-- A lexeme ends as well where less follows. -/
theorem ends_prefix {l : Lexeme} {s t : List Char} (h : l.Ends (s ++ t)) : l.Ends s := by
  cases l with
  | number mantissa marker digits => cases marker <;> exact stops_of_append h
  | op tok spelling =>
    cases tok with
    | minus | arrow | le | gt => exact stops_of_append h
    | lt => exact lexLt_prefix h
    | _ => trivial
  | space | quoted => trivial
  | _ => exact stops_of_append h

theorem texts_append (ls ms : List Lexeme) : texts (ls ++ ms) = texts ls ++ texts ms := List.flatMap_append

theorem tokens_append (ls ms : List Lexeme) : tokens (ls ++ ms) = tokens ls ++ tokens ms := List.filterMap_append

theorem chain_append_left {ls ms : List Lexeme} (h : Chain (ls ++ ms)) : Chain ls := by
  induction ls with
  | nil => trivial
  | cons l ls ih =>
    obtain ⟨hl, hends, hls⟩ := h
    have hends : l.Ends (texts ls ++ texts ms) := by
      rw [← texts_append]
      exact hends
    exact ⟨hl, ends_prefix hends, ih hls⟩

theorem chain_append_right {ls ms : List Lexeme} (h : Chain (ls ++ ms)) : Chain ms := by
  induction ls with
  | nil => exact h
  | cons l ls ih => exact ih h.2.2

/-! ## Whole texts -/

theorem tokens_cons (l : Lexeme) (ls : List Lexeme) : tokens (l :: ls) = l.token.toList ++ tokens ls := by
  unfold tokens
  cases h : l.token <;> simp [h]

theorem lexLoop_texts : ∀ {ls : List Lexeme} {fuel : Nat}, Chain ls → (texts ls).length ≤ fuel →
    lexLoop fuel (texts ls) = .ok (tokens ls ++ [.eof])
  | [], fuel, _, _ => lexLoop_nil fuel
  | l :: ls, fuel, ⟨hl, hends, hls⟩, hfuel => by
    obtain ⟨c, t, htext, hone⟩ := lexOne_text hl hends
    rw [texts_cons, htext, List.cons_append] at hfuel ⊢
    rw [List.length_cons, List.length_append] at hfuel
    obtain ⟨less, rfl⟩ : ∃ less, fuel = less + 1 := ⟨fuel - 1, by omega⟩
    rw [lexLoop, hone]
    change (lexLoop less (texts ls) >>= fun toks => _) = _
    rw [lexLoop_texts hls (by omega), tokens_cons, List.append_assoc]
    rfl

theorem chain_of_lexLoop : ∀ {fuel : Nat} {s : List Char} {toks : List Tok}, lexLoop fuel s = .ok toks →
    ∃ ls, Chain ls ∧ s = texts ls ∧ toks = tokens ls ++ [.eof]
  | fuel, [], toks, h => ⟨[], trivial, rfl, Except.ok.inj (h.symm.trans (lexLoop_nil fuel))⟩
  | 0, _ :: _, _, h => by cases h
  | fuel + 1, c :: s, toks, h => by
    obtain ⟨⟨tok, rest⟩, hone, h⟩ := Except.bind_eq_ok.1 h
    obtain ⟨toks', hloop, h⟩ := Except.bind_eq_ok.1 h
    obtain rfl := Except.ok.inj h
    obtain ⟨l, hl⟩ := takes_of_lexOne hone
    obtain ⟨ls, hls, rfl, rfl⟩ := chain_of_lexLoop hloop
    exact ⟨l :: ls, ⟨hl.wellFormed, hl.ends, hls⟩, hl.text, by rw [tokens_cons, hl.token, List.append_assoc]⟩

theorem lex_texts {ls : List Lexeme} (h : Chain ls) : lex (texts ls) = .ok (tokens ls ++ [.eof]) :=
  lexLoop_texts h (Nat.le_refl _)

/-- **A text lexes exactly when it is a chain of lexemes**, and to their tokens. -/
theorem lex_eq_ok {s : List Char} {toks : List Tok} :
    lex s = .ok toks ↔ ∃ ls, Chain ls ∧ s = texts ls ∧ toks = tokens ls ++ [.eof] := by
  constructor
  · exact chain_of_lexLoop
  · rintro ⟨ls, hls, rfl, rfl⟩
    exact lex_texts hls

end Twill
