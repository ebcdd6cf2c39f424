/-
Readers of byte strings, and when a reader undoes a writer.

A reader takes bytes off the front of what is left and may stop in any monad. `Reads r bytes a`
says that `r` takes exactly these bytes, whatever follows them, and makes `a` of them; it is
closed under `bind`, under choice by what was read, and under reading one item after another,
so a format that is read field by field in the order it was written is read back by one lemma
a field.
-/
import Mathlib

namespace ByteReader

/-! ## Little-endian numbers -/

def toLe : ℕ → ℕ → List UInt8
  | 0, _ => []
  | k + 1, n => UInt8.ofNat n :: toLe k (n / 256)

def fromLe : List UInt8 → ℕ
  | [] => 0
  | b :: bytes => b.toNat + 256 * fromLe bytes

@[simp] theorem length_toLe (k n : ℕ) : (toLe k n).length = k := by
  induction k generalizing n with
  | zero => rfl
  | succ k ih => rw [toLe, List.length_cons, ih]

theorem fromLe_toLe (k n : ℕ) : fromLe (toLe k n) = n % 256 ^ k := by
  induction k generalizing n with
  | zero => simp [toLe, fromLe, Nat.mod_one]
  | succ k ih =>
    have hbyte : (UInt8.ofNat n).toNat = n % 256 := by simp
    rw [toLe, fromLe, ih, hbyte, pow_succ', Nat.mod_mul]

theorem fromLe_lt (bytes : List UInt8) : fromLe bytes < 256 ^ bytes.length := by
  induction bytes with
  | nil => simp [fromLe]
  | cons b bytes ih =>
    have hbyte := b.toNat_lt
    rw [fromLe, List.length_cons, pow_succ']
    omega

/-! ## Readers -/

abbrev Reader (m : Type → Type) (α : Type) := StateT (List UInt8) m α

variable {m : Type → Type} [Monad m] {α β : Type}

/-- The next bytes, or the stop when there are too few. -/
def take (stop : m (List UInt8 × List UInt8)) (n : ℕ) : Reader m (List UInt8) := fun bytes =>
  if n ≤ bytes.length then pure (bytes.take n, bytes.drop n) else stop

/-- Whether every byte was taken. -/
def atEnd : Reader m Bool := fun bytes => pure (bytes.isEmpty, bytes)

/-- As many items as told. -/
def times (n : ℕ) (r : Reader m α) : Reader m (List α) :=
  match n with
  | 0 => pure []
  | n + 1 => do
    let a ← r
    let rest ← times n r
    return a :: rest

/-- The reader takes these bytes, and nothing of what comes after, as this value. -/
def Reads (r : Reader m α) (bytes : List UInt8) (a : α) : Prop := ∀ rest, r (bytes ++ rest) = pure (a, rest)

namespace Reads

variable [LawfulMonad m] {r : Reader m α} {f : α → Reader m β} {bytes more : List UInt8} {a : α} {b : β}

omit [LawfulMonad m] in
theorem pure (a : α) : Reads (Pure.pure a : Reader m α) [] a := fun _ => rfl

/-- What a reader took is out of the way of what is read next. -/
theorem run_bind (hr : Reads r bytes a) (f : α → Reader m β) (rest : List UInt8) : (r >>= f) (bytes ++ rest) = f a rest := by
  change (r (bytes ++ rest) >>= fun p => f p.1 p.2) = _
  rw [hr, pure_bind]

theorem bind (hr : Reads r bytes a) (hf : Reads (f a) more b) : Reads (r >>= f) (bytes ++ more) b := by
  intro rest
  rw [List.append_assoc, hr.run_bind, hf]

theorem bind_nil (hr : Reads r bytes a) (hf : Reads (f a) [] b) : Reads (r >>= f) bytes b := by
  have hboth := hr.bind hf
  rwa [List.append_nil] at hboth

theorem map (hr : Reads r bytes a) (g : α → β) : Reads (g <$> r) bytes (g a) := by
  intro rest
  change (r (bytes ++ rest) >>= fun p => Pure.pure (g p.1, p.2)) = _
  rw [hr, pure_bind]

theorem last (hr : Reads r bytes a) (g : α → β) : Reads (r >>= fun a => Pure.pure (g a)) bytes (g a) :=
  hr.bind_nil (Reads.pure (g a))

omit [LawfulMonad m] in
theorem take (stop : m (List UInt8 × List UInt8)) (bytes : List UInt8) : Reads (ByteReader.take stop bytes.length) bytes bytes := by
  intro rest
  have hle : bytes.length ≤ (bytes ++ rest).length := by simp
  rw [ByteReader.take, if_pos hle, List.take_left, List.drop_left]

/-- A number is read modulo what its bytes can hold. -/
theorem number (stop : m (List UInt8 × List UInt8)) (k n : ℕ) :
    Reads (fromLe <$> ByteReader.take stop k) (toLe k n) (n % 256 ^ k) := by
  have htake := Reads.take stop (toLe k n)
  rw [length_toLe] at htake
  have hmap := htake.map fromLe
  rwa [fromLe_toLe] at hmap

/-- A reader that looks at its end and is not there yet. -/
theorem not_atEnd {f : Bool → Reader m β} (hne : bytes ≠ []) (hf : Reads (f false) bytes b) :
    Reads (atEnd >>= f) bytes b := by
  intro rest
  have hempty : (bytes ++ rest).isEmpty = false := by simp [hne]
  change (Pure.pure ((bytes ++ rest).isEmpty, bytes ++ rest) >>= fun p => f p.1 p.2) = _
  rw [pure_bind, hempty, hf]

theorem times {put : α → List UInt8} {items : List α} (h : ∀ a ∈ items, Reads r (put a) a) :
    Reads (ByteReader.times items.length r) (items.flatMap put) items := by
  induction items with
  | nil => exact Reads.pure []
  | cons a items ih =>
    have hrest := ih fun b hb => h b (List.mem_cons_of_mem a hb)
    have hlast : Reads (Pure.pure (a :: items) : Reader m (List α)) [] (a :: items) := Reads.pure _
    have hall := (h a List.mem_cons_self).bind (f := fun a => do return a :: (← ByteReader.times items.length r))
      (hrest.bind (f := fun rest => Pure.pure (a :: rest)) hlast)
    rw [List.append_nil] at hall
    exact hall

end Reads

/-! ## What a reader returned -/

section Except

variable {ε : Type}

theorem eq_of_take {stop : Except ε (List UInt8 × List UInt8)} (hstop : ∀ p, stop ≠ .ok p) {n : ℕ} {bytes : List UInt8}
    {p : List UInt8 × List UInt8} (h : take stop n bytes = .ok p) : p.1.length = n := by
  rw [take] at h
  split at h
  · next hle =>
    obtain rfl := Except.ok.inj h
    rw [List.length_take, min_eq_left hle]
  · exact absurd h (hstop p)

/-- A reader in two parts that returned. -/
theorem of_bind {r : Reader (Except ε) α} {f : α → Reader (Except ε) β} {bytes : List UInt8} {p : β × List UInt8}
    (h : (r >>= f) bytes = .ok p) : ∃ q, r bytes = .ok q ∧ f q.1 q.2 = .ok p := by
  change (r bytes >>= fun q => f q.1 q.2) = .ok p at h
  cases hr : r bytes with
  | error e =>
    rw [hr] at h
    exact absurd h (by simp [bind, Except.bind])
  | ok q =>
    rw [hr] at h
    exact ⟨q, rfl, h⟩

/-- As many items as asked for, each of which the item's reader returned. -/
theorem of_times {r : Reader (Except ε) α} {n : ℕ} {bytes : List UInt8} {p : List α × List UInt8} (h : times n r bytes = .ok p) :
    p.1.length = n ∧ ∀ a ∈ p.1, ∃ bytes rest, r bytes = .ok (a, rest) := by
  induction n generalizing bytes p with
  | zero =>
    obtain rfl := Except.ok.inj h
    simp
  | succ n ih =>
    obtain ⟨⟨a, rest⟩, hfirst, hrest⟩ := of_bind h
    obtain ⟨⟨items, last⟩, hitems, hpure⟩ := of_bind hrest
    obtain rfl := Except.ok.inj hpure
    obtain ⟨hlength, hread⟩ := ih hitems
    refine ⟨congrArg (· + 1) hlength, fun b hb => ?_⟩
    rcases List.mem_cons.mp hb with rfl | hb
    · exact ⟨bytes, rest, hfirst⟩
    · exact hread b hb

end Except

end ByteReader
