/-
Association lists with distinct keys (`AList`) used as hash maps: the two
bulk operations Mathlib does not have, mapping over every value and keeping
the entries that satisfy a predicate, with their lookup rules.
-/
import Mathlib

universe u v w

namespace AList

variable {κ : Type u} {α : Type v} {β : Type w} [DecidableEq κ]

/-- Applies `f` to every value, keys and order unchanged. -/
def mapVals (f : κ → α → β) (m : AList (fun _ : κ => α)) : AList (fun _ : κ => β) :=
  ⟨m.entries.map fun e => ⟨e.1, f e.1 e.2⟩, by
    have h := m.nodupKeys
    simpa [List.NodupKeys, List.keys, Function.comp_def] using h⟩

/-- Keeps the entries satisfying `p`, order unchanged. -/
def filterVals (p : κ → α → Bool) (m : AList (fun _ : κ => α)) : AList (fun _ : κ => α) :=
  ⟨m.entries.filter fun e => p e.1 e.2, by
    have h := m.nodupKeys
    exact List.Nodup.sublist (List.Sublist.map _ List.filter_sublist) h⟩

/-- The values, in entry order. -/
def values (m : AList (fun _ : κ => α)) : List α := m.entries.map (·.2)

theorem dlookup_mapVals (f : κ → α → β) (k : κ) (l : List (Sigma fun _ : κ => α)) :
    List.dlookup k (l.map fun e => (⟨e.1, f e.1 e.2⟩ : Sigma fun _ : κ => β)) =
      (List.dlookup k l).map (f k) := by
  induction l with
  | nil => rfl
  | cons e l ih =>
    obtain ⟨k', a⟩ := e
    by_cases h : k = k'
    · subst h
      simp [List.dlookup]
    · simp only [List.map_cons]
      rw [List.dlookup_cons_ne _ _ h, List.dlookup_cons_ne _ _ h, ih]

@[simp] theorem lookup_mapVals (f : κ → α → β) (m : AList (fun _ : κ => α)) (k : κ) :
    (m.mapVals f).lookup k = (m.lookup k).map (f k) :=
  dlookup_mapVals f k m.entries

theorem mapVals_congr {f g : κ → α → β} {m : AList (fun _ : κ => α)}
    (h : ∀ k a, m.lookup k = some a → f k a = g k a) : m.mapVals f = m.mapVals g := by
  apply AList.ext
  apply List.map_congr_left
  intro e he
  have := h e.1 e.2 (List.mem_dlookup m.nodupKeys he)
  rw [this]

theorem mapVals_id {f : κ → α → α} {m : AList (fun _ : κ => α)}
    (h : ∀ k a, m.lookup k = some a → f k a = a) : m.mapVals f = m := by
  rw [mapVals_congr (g := fun _ a => a) h]
  apply AList.ext
  exact List.map_id _

omit [DecidableEq κ] in
theorem mapVals_mapVals {γ : Type*} (g : κ → β → γ) (f : κ → α → β) (m : AList (fun _ : κ => α)) :
    (m.mapVals f).mapVals g = m.mapVals fun k a => g k (f k a) := by
  apply AList.ext
  simp [mapVals]

/-- Keeping the entries whose key satisfies `p`. -/
theorem lookup_filterVals_key (p : κ → Bool) (m : AList (fun _ : κ => α)) (k : κ) :
    (m.filterVals fun k _ => p k).lookup k = if p k then m.lookup k else none := by
  show List.dlookup k (m.entries.filter fun e => p e.1) = if p k then List.dlookup k m.entries else none
  induction m.entries with
  | nil => simp
  | cons e l ih =>
    obtain ⟨k', a⟩ := e
    by_cases hk : k = k'
    · subst hk
      by_cases hp : p k = true
      · simp [hp]
      · have hp' : p k = false := by simpa using hp
        simpa [hp'] using ih
    · by_cases hp : p k' = true
      · simp only [List.filter_cons, hp, if_true]
        rw [List.dlookup_cons_ne _ _ hk, List.dlookup_cons_ne _ _ hk, ih]
      · simp only [List.filter_cons, hp, if_false]
        rw [List.dlookup_cons_ne _ _ hk]
        exact ih

/-! ## Maps built by inserting each element of a list -/

section FoldInsert

variable {γ : Type*} {key : γ → κ} {val : γ → α}

theorem mem_of_lookup_foldl_insert {k : κ} {a : α} :
    ∀ {l : List γ} {m : AList (fun _ : κ => α)},
      (l.foldl (fun m c => m.insert (key c) (val c)) m).lookup k = some a →
      (∃ c ∈ l, key c = k ∧ val c = a) ∨ m.lookup k = some a
  | [], _, h => .inr h
  | c :: l, m, h => by
    rcases mem_of_lookup_foldl_insert (l := l) h with ⟨c', hc', heq⟩ | h
    · exact .inl ⟨c', List.mem_cons_of_mem _ hc', heq⟩
    · by_cases hk : k = key c
      · subst hk
        rw [lookup_insert] at h
        exact .inl ⟨c, List.mem_cons_self, rfl, by simpa using h⟩
      · rw [lookup_insert_ne hk] at h
        exact .inr h

theorem isSome_lookup_foldl_insert {k : κ} :
    ∀ {l : List γ} {m : AList (fun _ : κ => α)}, (∃ c ∈ l, key c = k) ∨ (m.lookup k).isSome →
      ((l.foldl (fun m c => m.insert (key c) (val c)) m).lookup k).isSome
  | [], _, h => by simpa using h
  | c :: l, m, h => by
    refine isSome_lookup_foldl_insert (l := l) ?_
    rcases h with ⟨c', hc', hk⟩ | h
    · rcases List.mem_cons.1 hc' with rfl | hc'
      · right
        subst hk
        show ((m.insert (key c') (val c')).lookup (key c')).isSome
        rw [lookup_insert]
        rfl
      · exact .inl ⟨c', hc', hk⟩
    · right
      show ((m.insert (key c) (val c)).lookup k).isSome
      by_cases hk : k = key c
      · rw [hk, lookup_insert]
        rfl
      · rwa [lookup_insert_ne hk]

end FoldInsert

end AList
