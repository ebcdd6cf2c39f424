/-
How far the reader of JSON bodies gets (`datapath.rs`: `JsonParser`): whatever it reads it takes
off the text, so that the fuel of `parse` bounds no body, well formed or not.
-/
import Twill.Lib.Except
import Twill.Server.JsonBody

namespace Twill.Server.JsonBody

open Json (ws isNumberChar)

theorem map_eq_ok {α β : Type} {f : α → β} {x : Except String α} {b : β} : x.map f = .ok b ↔ ∃ a, x = .ok a ∧ f a = b := by
  cases x with
  | error e => simp [Except.map]
  | ok a => simp [Except.map]

theorem ws_length (cs : List Char) : (ws cs).length ≤ cs.length := (List.dropWhile_suffix _).length_le

theorem stringRest_length {cs s rest : List Char} (h : stringRest cs = .ok (s, rest)) : rest.length < cs.length := by
  induction hn : cs.length using Nat.strong_induction_on generalizing cs s rest with
  | _ n ih =>
    have hpush {d : Char} {after : List Char} (hless : after.length < n)
        (h : (stringRest after).map (fun p : List Char × List Char => (d :: p.1, p.2)) = .ok (s, rest)) : rest.length < n := by
      obtain ⟨⟨t, rest'⟩, hread, heq⟩ := map_eq_ok.1 h
      cases heq
      exact (ih _ hless hread rfl).trans hless
    rw [stringRest.eq_def] at h
    cases cs with
    | nil => cases h
    | cons c cs =>
      rw [List.length_cons] at hn
      dsimp only at h
      by_cases hquote : c = '"'
      · rw [if_pos hquote] at h
        cases h
        omega
      · rw [if_neg hquote] at h
        by_cases hslash : c = '\\'
        · rw [if_pos hslash] at h
          cases cs with
          | nil => cases h
          | cons e cs =>
            rw [List.length_cons] at hn
            dsimp only at h
            split at h
            · exact hpush (by omega) h
            · split at h
              · split at h
                · rename_i hlist
                  simp only [List.length_cons] at hn
                  split at h
                  · exact hpush (by omega) h
                  · cases h
                · cases h
              · cases h
        · rw [if_neg hslash] at h
          exact hpush (by omega) h

theorem string_length {cs rest : List Char} {s : String} (h : string cs = .ok (s, rest)) : rest.length < cs.length := by
  unfold string at h
  split at h
  · obtain ⟨⟨t, rest'⟩, hread, heq⟩ := map_eq_ok.1 h
    cases heq
    exact (stringRest_length hread).trans (Nat.lt_succ_self _)
  · cases h

theorem number_length {cs rest : List Char} {v : Json} (h : number cs = .ok (v, rest)) : rest.length < cs.length := by
  have hsplit := congrArg List.length (List.takeWhile_append_dropWhile (p := isNumberChar) (l := cs))
  rw [List.length_append] at hsplit
  unfold number at h
  dsimp only at h
  split at h
  · rename_i hparse
    cases h
    have hne : cs.takeWhile isNumberChar ≠ [] := by
      intro hempty
      rw [hempty] at hparse
      cases hparse
    have hpos := List.length_pos_iff.2 hne
    omega
  · cases h

theorem literal_length {word : String} {cs rest : List Char} {v w : Json} (hword : 0 < word.length)
    (h : literal word v cs = .ok (w, rest)) : rest.length < cs.length := by
  unfold literal at h
  split at h
  · rename_i hprefix
    cases h
    have hle := (List.isPrefixOf_iff_prefix.1 hprefix).length_le
    rw [String.length_toList] at hle
    rw [List.length_drop]
    omega
  · cases h

theorem ws_cons_length {cs rest : List Char} {c : Char} (h : ws cs = c :: rest) : rest.length < cs.length := by
  have hle := ws_length cs
  rw [h, List.length_cons] at hle
  omega

/-- What is read is taken off the text. -/
theorem read_length (fuel : ℕ) :
    (∀ cs v rest, value fuel cs = .ok (v, rest) → rest.length < cs.length) ∧
    (∀ cs vs rest, items fuel cs = .ok (vs, rest) → rest.length < cs.length) ∧
    (∀ cs ms rest, members fuel cs = .ok (ms, rest) → rest.length < cs.length) := by
  induction fuel with
  | zero =>
    refine ⟨?_, ?_, ?_⟩
    · intro cs v rest h
      cases h
    · intro cs vs rest h
      cases h
    · intro cs ms rest h
      cases h
  | succ fuel ih =>
    obtain ⟨hvalue, hitems, hmembers⟩ := ih
    refine ⟨?_, ?_, ?_⟩
    · intro cs v rest h
      rw [value] at h
      cases hws : ws cs with
      | nil =>
        rw [hws] at h
        cases h
      | cons c after =>
        have hafter := ws_cons_length hws
        have hle := ws_length cs
        rw [hws] at h hle
        dsimp only at h
        split at h
        · split at h
          · rename_i hclose
            cases h
            exact (ws_cons_length hclose).trans hafter
          · obtain ⟨⟨ms, rest'⟩, hread, heq⟩ := map_eq_ok.1 h
            cases heq
            exact (hmembers _ _ _ hread).trans hafter
        · split at h
          · split at h
            · rename_i hclose
              cases h
              exact (ws_cons_length hclose).trans hafter
            · obtain ⟨⟨vs, rest'⟩, hread, heq⟩ := map_eq_ok.1 h
              cases heq
              exact (hitems _ _ _ hread).trans hafter
          · split at h
            · obtain ⟨⟨s, rest'⟩, hread, heq⟩ := map_eq_ok.1 h
              cases heq
              exact (string_length hread).trans_le hle
            · split at h
              · exact (literal_length (by decide) h).trans_le hle
              · split at h
                · exact (literal_length (by decide) h).trans_le hle
                · split at h
                  · exact (literal_length (by decide) h).trans_le hle
                  · exact (number_length h).trans_le hle
    · intro cs vs rest h
      rw [items] at h
      obtain ⟨⟨v, after⟩, hread, h⟩ := Except.bind_eq_ok.1 h
      have hfirst := hvalue _ _ _ hread
      dsimp only at h
      split at h
      · rename_i hcomma
        obtain ⟨⟨vs', rest'⟩, hmore, heq⟩ := Except.bind_eq_ok.1 h
        cases heq
        exact (hitems _ _ _ hmore).trans ((ws_cons_length hcomma).trans hfirst)
      · rename_i hclose
        cases h
        exact (ws_cons_length hclose).trans hfirst
      · cases h
    · intro cs ms rest h
      rw [members] at h
      obtain ⟨⟨k, after⟩, hkey, h⟩ := Except.bind_eq_ok.1 h
      have hfirst := (string_length hkey).trans_le (ws_length cs)
      dsimp only at h
      split at h
      · rename_i hcolon
        obtain ⟨⟨v, after'⟩, hread, h⟩ := Except.bind_eq_ok.1 h
        have hsecond := (hvalue _ _ _ hread).trans ((ws_cons_length hcolon).trans hfirst)
        dsimp only at h
        split at h
        · rename_i hcomma
          obtain ⟨⟨ms', rest'⟩, hmore, heq⟩ := Except.bind_eq_ok.1 h
          cases heq
          exact (hmembers _ _ _ hmore).trans ((ws_cons_length hcomma).trans hsecond)
        · rename_i hclose
          cases h
          exact (ws_cons_length hclose).trans hsecond
        · cases h
      · cases h

/-- More fuel than twice the text is long changes nothing. -/
theorem read_fuel (fuel : ℕ) :
    (∀ cs : List Char, 2 * cs.length + 1 ≤ fuel → value (fuel + 1) cs = value fuel cs) ∧
    (∀ cs : List Char, 2 * cs.length + 2 ≤ fuel → items (fuel + 1) cs = items fuel cs) ∧
    (∀ cs : List Char, 2 * cs.length + 2 ≤ fuel → members (fuel + 1) cs = members fuel cs) := by
  induction fuel with
  | zero => exact ⟨fun cs h => by omega, fun cs h => by omega, fun cs h => by omega⟩
  | succ fuel ih =>
    obtain ⟨hvalue, hitems, hmembers⟩ := ih
    obtain ⟨hlength, -, -⟩ := read_length fuel
    refine ⟨?_, ?_, ?_⟩
    · intro cs hfuel
      rw [value.eq_def (fuel + 1 + 1), value.eq_def (fuel + 1)]
      dsimp only
      cases hws : ws cs with
      | nil => rfl
      | cons c rest =>
        have hrest := ws_cons_length hws
        dsimp only
        rw [hmembers rest (by omega), hitems rest (by omega)]
    · intro cs hfuel
      rw [items.eq_def (fuel + 1 + 1), items.eq_def (fuel + 1)]
      dsimp only
      rw [hvalue cs (by omega)]
      refine Except.bind_congr_ok fun ⟨v, rest⟩ hread => ?_
      have hfirst := hlength _ _ _ hread
      dsimp only
      split
      · rename_i hcomma
        have hafter := (ws_cons_length hcomma).trans hfirst
        rw [hitems _ (by omega)]
      · rfl
      · rfl
    · intro cs hfuel
      rw [members.eq_def (fuel + 1 + 1), members.eq_def (fuel + 1)]
      dsimp only
      refine Except.bind_congr_ok fun ⟨k, rest⟩ hkey => ?_
      have hfirst := (string_length hkey).trans_le (ws_length cs)
      dsimp only
      split
      · rename_i hcolon
        have hsecond := (ws_cons_length hcolon).trans hfirst
        rw [hvalue _ (by omega)]
        refine Except.bind_congr_ok fun ⟨v, rest'⟩ hread => ?_
        have hthird := (hlength _ _ _ hread).trans hsecond
        dsimp only
        split
        · rename_i hcomma
          have hafter := (ws_cons_length hcomma).trans hthird
          rw [hmembers _ (by omega)]
        · rfl
        · rfl
      · rfl

/-- `parse` gives the reader as much fuel as it can use. -/
theorem value_fuel {cs : List Char} {fuel : ℕ} (h : 2 * cs.length + 1 ≤ fuel) : value fuel cs = value (2 * cs.length + 1) cs := by
  induction fuel, h using Nat.le_induction with
  | base => rfl
  | succ fuel h ih => rw [(read_fuel fuel).1 cs h, ih]


end Twill.Server.JsonBody
