/-
Texts as lists of characters: trimming at either end, substrings, and how they
relate to prefixes.
-/
import Mathlib

namespace Text

variable {p q : Char → Bool} {s t : List Char}

/-- `str::trim_start_matches`. -/
def trimStart (p : Char → Bool) (s : List Char) : List Char := s.dropWhile p

/-- `str::trim_end_matches`. -/
def trimEnd (p : Char → Bool) (s : List Char) : List Char := (s.reverse.dropWhile p).reverse

/-- `str::trim_matches`. -/
def trim (p : Char → Bool) (s : List Char) : List Char := trimEnd p (trimStart p s)

/-- `str::contains` of a text. -/
def contains (s pat : List Char) : Bool := s.tails.any fun t => pat.isPrefixOf t

/-- `str::strip_prefix`. -/
def stripPrefix (pat : List Char) : List Char → Option (List Char) := fun s =>
  if pat.isPrefixOf s then some (s.drop pat.length) else none

/-- The text before the first place `pat` occurs, and the text from there. -/
def splitAt (pat : List Char) : List Char → Option (List Char × List Char)
  | [] => if pat.isEmpty then some ([], []) else none
  | c :: s =>
    if pat.isPrefixOf (c :: s) then some ([], c :: s)
    else (splitAt pat s).map fun r => (c :: r.1, r.2)

theorem contains_iff {pat : List Char} : contains s pat = true ↔ pat <:+: s := by
  simp only [contains, List.any_eq_true, List.mem_tails, List.isPrefixOf_iff_prefix]
  constructor
  · rintro ⟨t, ⟨a, rfl⟩, b, rfl⟩
    exact ⟨a, b, by simp⟩
  · rintro ⟨a, b, rfl⟩
    exact ⟨pat ++ b, ⟨a, by simp⟩, b, rfl⟩

/-- A text that starts with a kept character is kept up to there. -/
theorem trimEnd_append {c : Char} (h : p c = false) (s t : List Char) :
    ∃ u, trimEnd p (s ++ c :: t) = s ++ c :: u ∧ u <+: t := by
  have hrev : (s ++ c :: t).reverse = t.reverse ++ c :: s.reverse := by simp
  rw [trimEnd, hrev]
  by_cases hall : ∀ x ∈ t.reverse, p x = true
  · refine ⟨[], ?_, List.nil_prefix⟩
    rw [List.dropWhile_append_of_pos hall, List.dropWhile_cons_of_neg (by simp [h])]
    simp
  · have hne : t.reverse.dropWhile p ≠ [] := by
      intro hnil
      exact hall (List.dropWhile_eq_nil_iff.1 hnil)
    rw [List.dropWhile_append, if_neg (by simpa using hne)]
    refine ⟨(t.reverse.dropWhile p).reverse, by simp, ?_⟩
    rw [← List.reverse_suffix, List.reverse_reverse]
    exact List.dropWhile_suffix p

theorem trimEnd_prefix (p : Char → Bool) (s : List Char) : trimEnd p s <+: s := by
  rw [trimEnd, ← List.reverse_suffix, List.reverse_reverse]
  exact List.dropWhile_suffix p

/-- Neither trimming nor lower case makes a text longer at its start. -/
theorem isPrefixOf_append {pat : List Char} (h : pat.isPrefixOf s = true) (t : List Char) :
    pat.isPrefixOf (s ++ t) = true := by
  obtain ⟨u, rfl⟩ := List.isPrefixOf_iff_prefix.1 h
  exact List.isPrefixOf_iff_prefix.2 ⟨u ++ t, by simp⟩

/-- Two prefixes of one text agree as far as both go. -/
theorem eq_of_isPrefixOf_cons {a b : Char} {pat : List Char} (h : (a :: pat).isPrefixOf (b :: s) = true) :
    a = b ∧ pat.isPrefixOf s = true := by
  simpa [List.isPrefixOf] using h

/-- A text split at a pattern contains it. -/
theorem contains_of_splitAt {pat : List Char} : ∀ {s : List Char} {r : List Char × List Char},
    splitAt pat s = some r → contains s pat = true
  | [], r, h => by
    unfold splitAt at h
    split at h
    · rename_i hempty
      rw [List.isEmpty_iff.1 hempty]
      rfl
    · cases h
  | c :: s, r, h => by
    unfold splitAt at h
    split at h
    · rename_i hprefix
      exact contains_iff.2 (List.isPrefixOf_iff_prefix.1 hprefix).isInfix
    · obtain ⟨r', h', -⟩ := Option.map_eq_some_iff.1 h
      exact contains_iff.2 ((contains_iff.1 (contains_of_splitAt h')).trans (List.suffix_cons c s).isInfix)

end Text
