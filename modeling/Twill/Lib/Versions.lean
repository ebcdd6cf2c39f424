/-
Versioned records: each has a key and a stamp, and a read at `q` is for the
version of its key with the greatest stamp at or below `q`.

The lemmas say when a read of a part of the versions is a read of all of them:
an upper part that holds everything newer than what it answers, and a summary
that keeps the greatest version of each key at or below some stamp.
-/
import Mathlib

namespace Versions

variable {ρ κ : Type*} {key : ρ → κ} {stamp : ρ → Nat} {S T : Set ρ} {k : κ} {q f : Nat} {r r' : ρ}

/-- `r` is the version of `k` with the greatest stamp at or below `q`. -/
structure IsLatest (key : ρ → κ) (stamp : ρ → Nat) (S : Set ρ) (k : κ) (q : Nat) (r : ρ) : Prop where
  mem : r ∈ S
  key_eq : key r = k
  le : stamp r ≤ q
  greatest : ∀ x ∈ S, key x = k → stamp x ≤ q → stamp x ≤ stamp r

/-- No version of `k` is at or below `q`. -/
def NoneAt (key : ρ → κ) (stamp : ρ → Nat) (S : Set ρ) (k : κ) (q : Nat) : Prop :=
  ∀ x ∈ S, key x = k → q < stamp x

/-- A key and a stamp name at most one version. -/
def Distinct (key : ρ → κ) (stamp : ρ → Nat) (S : Set ρ) : Prop :=
  ∀ x ∈ S, ∀ y ∈ S, key x = key y → stamp x = stamp y → x = y

theorem IsLatest.unique (hdistinct : Distinct key stamp S) (h : IsLatest key stamp S k q r)
    (h' : IsLatest key stamp S k q r') : r = r' := by
  refine hdistinct r h.mem r' h'.mem (h.key_eq.trans h'.key_eq.symm) (le_antisymm ?_ ?_)
  · exact h'.greatest r h.mem h.key_eq h.le
  · exact h.greatest r' h'.mem h'.key_eq h'.le

/-- What a part answers is what the whole answers, when the part holds every
version newer than the answer. -/
theorem IsLatest.of_part (h : IsLatest key stamp T k q r) (hsub : T ⊆ S)
    (hnewer : ∀ x ∈ S, key x = k → stamp x ≤ q → stamp r < stamp x → x ∈ T) : IsLatest key stamp S k q r := by
  refine ⟨hsub h.mem, h.key_eq, h.le, fun x hx hk hle => ?_⟩
  by_contra hlt
  have hT := hnewer x hx hk hle (by omega)
  exact hlt (h.greatest x hT hk hle)

/-- `T` sums up the versions of `S` at or below `f`: it holds, for each of them,
one of the same key that is no older. -/
structure Sums (key : ρ → κ) (stamp : ρ → Nat) (S : Set ρ) (f : Nat) (T : Set ρ) : Prop where
  sub : T ⊆ S
  le : ∀ x ∈ T, stamp x ≤ f
  covers : ∀ x ∈ S, stamp x ≤ f → ∃ y ∈ T, key y = key x ∧ stamp x ≤ stamp y

/-- Reading a summary, where nothing newer than what it sums up is in view. -/
theorem IsLatest.of_sums (h : IsLatest key stamp T k q r) (hsums : Sums key stamp S f T) (hq : f ≤ q)
    (hold : ∀ x ∈ S, key x = k → stamp x ≤ q → stamp x ≤ f) : IsLatest key stamp S k q r := by
  refine ⟨hsums.sub h.mem, h.key_eq, h.le, fun x hx hk hle => ?_⟩
  obtain ⟨y, hy, hkey, hxy⟩ := hsums.covers x hx (hold x hx hk hle)
  exact hxy.trans (h.greatest y hy (hkey.trans hk) ((hsums.le y hy).trans hq))

theorem NoneAt.of_sums (h : NoneAt key stamp T k q) (hsums : Sums key stamp S f T) (hq : f ≤ q)
    (hold : ∀ x ∈ S, key x = k → stamp x ≤ q → stamp x ≤ f) : NoneAt key stamp S k q := by
  intro x hx hk
  by_contra hle
  obtain ⟨y, hy, hkey, -⟩ := hsums.covers x hx (hold x hx hk (by omega))
  have := h y hy (hkey.trans hk)
  have := hsums.le y hy
  omega

/-- A summary stays one while only newer versions come. -/
theorem Sums.mono {S' : Set ρ} (h : Sums key stamp S f T) (hsub : S ⊆ S')
    (hnew : ∀ x ∈ S', stamp x ≤ f → x ∈ S) : Sums key stamp S' f T :=
  ⟨h.sub.trans hsub, h.le, fun x hx hle => h.covers x (hnew x hx hle) hle⟩

end Versions
