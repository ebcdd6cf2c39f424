/-
Byte-framed logs: little-endian integers, and a reader that takes one record
after another off the front of its input until it meets a place where it stops.

A record is read in a state the reader threads through the log (a sequence
counter, say), so what a log reads as depends on where the reading starts.
`Reads` says that a list of chunks is read as a list of records whatever bytes
follow; `readAll_of_reads` is then the reader on a log with a tail it refuses.
-/
import Mathlib

namespace Framing

/-! ## Little-endian integers -/

/-- The `k` low bytes of `n`, least significant first. -/
def toLE : Nat → Nat → List UInt8
  | 0, _ => []
  | k + 1, n => UInt8.ofNat n :: toLE k (n / 256)

/-- The number little-endian bytes stand for. -/
def ofLE : List UInt8 → Nat
  | [] => 0
  | b :: bs => b.toNat + 256 * ofLE bs

@[simp] theorem length_toLE : ∀ k n, (toLE k n).length = k
  | 0, _ => rfl
  | k + 1, n => by simp [toLE, length_toLE k]

theorem ofLE_toLE : ∀ {k n : Nat}, n < 256 ^ k → ofLE (toLE k n) = n
  | 0, n, h => by
    have : n = 0 := by simpa using h
    simp [toLE, ofLE, this]
  | k + 1, n, h => by
    have hdiv : n / 256 < 256 ^ k := by
      rw [pow_succ] at h
      exact Nat.div_lt_of_lt_mul (by omega)
    have hbyte : (UInt8.ofNat n).toNat = n % 256 := by simp
    rw [toLE, ofLE, ofLE_toLE hdiv, hbyte]
    omega

/-! ## Reading records -/

/-- What a reader finds at the front of its input: a record of some size, or
nothing it accepts. Either way it may have moved its state. -/
inductive Read (σ β : Type*) where
  | item (b : β) (size : Nat) (s : σ)
  | stop (s : σ)
  deriving DecidableEq

variable {σ α β : Type*} {next : σ → List α → Read σ β} {s s₁ s₂ s₃ : σ}

/-- Reads records until the first stop: the records, the length they take up,
and the last state. -/
def readAll (next : σ → List α → Read σ β) : Nat → σ → List α → List β × Nat × σ
  | 0, s, _ => ([], 0, s)
  | fuel + 1, s, input => match next s input with
    | .stop s' => ([], 0, s')
    | .item b size s' =>
      let rest := readAll next fuel s' (input.drop size)
      (b :: rest.1, size + rest.2.1, rest.2.2)

/-- From state `s₁` the chunks are read as these records, whatever follows each,
and leave the reader in `s₂`. -/
inductive Reads (next : σ → List α → Read σ β) : σ → List (List α) → List β → σ → Prop
  | nil {s : σ} : Reads next s [] [] s
  | cons {s s₁ s₂ : σ} {c : List α} {b : β} {cs : List (List α)} {bs : List β} :
      (∀ rest, next s (c ++ rest) = .item b c.length s₁) → Reads next s₁ cs bs s₂ →
      Reads next s (c :: cs) (b :: bs) s₂

theorem Reads.append {cs cs' : List (List α)} {bs bs' : List β} (h : Reads next s₁ cs bs s₂)
    (h' : Reads next s₂ cs' bs' s₃) : Reads next s₁ (cs ++ cs') (bs ++ bs') s₃ := by
  induction h with
  | nil => exact h'
  | cons hread _ ih => exact .cons hread (ih h')

theorem Reads.snoc {cs : List (List α)} {bs : List β} {c : List α} {b : β}
    (h : Reads next s₁ cs bs s₂) (hread : ∀ rest, next s₂ (c ++ rest) = .item b c.length s₃) :
    Reads next s₁ (cs ++ [c]) (bs ++ [b]) s₃ :=
  h.append (.cons hread .nil)

/-- The reader on a log with a tail: what it makes of the tail comes after the log. -/
theorem readAll_append {cs : List (List α)} {bs : List β} (h : Reads next s₁ cs bs s₂) (tail : List α) (fuel : Nat) :
    readAll next (cs.length + fuel) s₁ (cs.flatten ++ tail) =
      (bs ++ (readAll next fuel s₂ tail).1, cs.flatten.length + (readAll next fuel s₂ tail).2.1, (readAll next fuel s₂ tail).2.2) := by
  induction h with
  | nil => simp
  | @cons s s₁ s₂ c b cs bs hread _ ih =>
    have hdrop : (c ++ (cs.flatten ++ tail)).drop c.length = cs.flatten ++ tail := by simp
    have hfuel : (c :: cs).length + fuel = (cs.length + fuel) + 1 := by simp only [List.length_cons]; omega
    rw [hfuel, readAll, List.flatten_cons, List.append_assoc, hread]
    dsimp only
    rw [hdrop, ih, List.length_append, List.cons_append, Nat.add_assoc]

/-- The reader on a log whose tail it refuses. -/
theorem readAll_of_reads {cs : List (List α)} {bs : List β} {tail : List α}
    (h : Reads next s₁ cs bs s₂) (hstop : next s₂ tail = .stop s₃) {fuel : Nat} (hfuel : cs.length < fuel) :
    readAll next fuel s₁ (cs.flatten ++ tail) = (bs, cs.flatten.length, s₃) := by
  obtain ⟨fuel, rfl⟩ : ∃ m, fuel = cs.length + (m + 1) := ⟨fuel - cs.length - 1, by omega⟩
  rw [readAll_append h, readAll, hstop]
  simp

/-- What holds of every item where it is read holds of all that are read. -/
theorem forall_mem_readAll {P : β → Prop} (h : ∀ {s s' : σ} {input : List α} {b : β} {size : ℕ}, next s input = .item b size s' → P b)
    (fuel : ℕ) (s : σ) (input : List α) : ∀ b ∈ (readAll next fuel s input).1, P b := by
  induction fuel generalizing s input with
  | zero => simp [readAll]
  | succ fuel ih =>
    rw [readAll]
    split
    · simp
    · next b size s' hitem =>
      intro b' hb'
      rcases List.mem_cons.mp hb' with rfl | hb'
      · exact h hitem
      · exact ih _ _ _ hb'

/-- Items that weigh no more than they take up weigh together no more than the input. -/
theorem sum_readAll_le {w : β → ℕ}
    (h : ∀ {s s' : σ} {input : List α} {b : β} {size : ℕ}, next s input = .item b size s' → w b ≤ size ∧ size ≤ input.length)
    (fuel : ℕ) (s : σ) (input : List α) : ((readAll next fuel s input).1.map w).sum ≤ input.length := by
  induction fuel generalizing s input with
  | zero => simp [readAll]
  | succ fuel ih =>
    rw [readAll]
    split
    · simp
    · next b size s' hitem =>
      obtain ⟨hweight, hsize⟩ := h hitem
      have hrest := ih s' (input.drop size)
      rw [List.length_drop] at hrest
      simp only [List.map_cons, List.sum_cons]
      omega

/-- A reader whose item depends on the item's own bytes only, and which stops at the end. -/
structure Local (next : σ → List α → Read σ β) : Prop where
  item : ∀ {s s' : σ} {input : List α} {b : β} {size : ℕ}, next s input = .item b size s' →
    0 < size ∧ size ≤ input.length ∧ ∀ rest, next s (input.take size ++ rest) = .item b size s'
  done : ∀ s, next s [] = .stop s

/-- Input that was read to its end is a list of chunks. -/
theorem Local.reads_of_readAll (hlocal : Local next) {fuel : ℕ} {input : List α} {bs : List β}
    (h : readAll next fuel s₁ input = (bs, input.length, s₂)) :
    ∃ cs, input = cs.flatten ∧ (∀ c ∈ cs, c ≠ []) ∧ Reads next s₁ cs bs s₂ := by
  induction fuel generalizing s₁ input bs with
  | zero =>
    simp only [readAll, Prod.mk.injEq] at h
    obtain ⟨rfl, hlength, rfl⟩ := h
    exact ⟨[], by simpa using hlength.symm, by simp, .nil⟩
  | succ fuel ih =>
    rw [readAll] at h
    split at h
    · next s hstop =>
      simp only [Prod.mk.injEq] at h
      obtain ⟨rfl, hlength, rfl⟩ := h
      have hinput : input = [] := List.length_eq_zero_iff.mp hlength.symm
      rw [hinput, hlocal.done] at hstop
      obtain rfl : s₁ = s := by simpa using hstop
      exact ⟨[], by simpa using hinput, by simp, .nil⟩
    · next b size s hitem =>
      obtain ⟨hpos, hsize, hread⟩ := hlocal.item hitem
      obtain ⟨bs', n, s', hrest⟩ : ∃ bs' n s', readAll next fuel s (input.drop size) = (bs', n, s') := ⟨_, _, _, rfl⟩
      simp only [hrest, Prod.mk.injEq] at h
      obtain ⟨rfl, hlength, rfl⟩ := h
      have hn : n = (input.drop size).length := by rw [List.length_drop]; omega
      rw [hn] at hrest
      obtain ⟨cs, hcs, hne, hreads⟩ := ih hrest
      have hchunk : (input.take size).length = size := by rw [List.length_take, min_eq_left hsize]
      refine ⟨input.take size :: cs, ?_, ?_, .cons (fun rest => ?_) hreads⟩
      · rw [List.flatten_cons, ← hcs, List.take_append_drop]
      · intro c hc
        rcases List.mem_cons.mp hc with rfl | hc
        · exact List.ne_nil_of_length_pos (hchunk.symm ▸ hpos)
        · exact hne c hc
      · rw [hread rest, hchunk]

theorem Reads.length_eq {cs : List (List α)} {bs : List β} (h : Reads next s₁ cs bs s₂) :
    cs.length = bs.length := by
  induction h with
  | nil => rfl
  | cons _ _ ih => simp [ih]

/-- Chunks that are not empty are no more than the bytes they hold. -/
theorem length_le_length_flatten {cs : List (List α)} (h : ∀ c ∈ cs, c ≠ []) :
    cs.length ≤ cs.flatten.length := by
  induction cs with
  | nil => simp
  | cons c cs ih =>
    have hc : 0 < c.length := List.length_pos_iff.2 (h c (by simp))
    have := ih fun c' hc' => h c' (by simp [hc'])
    simp only [List.length_cons, List.flatten_cons, List.length_append]
    omega

/-! ## Files -/

/-- Writes bytes at an offset: what they cover is replaced, what lies past them
stays, and a hole before them reads as `zero`. -/
def writeAt (zero : α) (file : List α) (offset : Nat) (bytes : List α) : List α :=
  file.take offset ++ List.replicate (offset - file.length) zero ++ bytes ++ file.drop (offset + bytes.length)

/-- Sets the length: a longer file loses its tail, a shorter one grows by `zero`. -/
def setLen (zero : α) (file : List α) (len : Nat) : List α :=
  file.take len ++ List.replicate (len - file.length) zero

theorem writeAt_append (zero : α) (a tail bytes : List α) :
    writeAt zero (a ++ tail) a.length bytes = a ++ bytes ++ tail.drop bytes.length := by
  simp [writeAt, List.drop_append]

theorem writeAt_end (zero : α) (file bytes : List α) :
    writeAt zero file file.length bytes = file ++ bytes := by
  simpa using writeAt_append zero file [] bytes

end Framing
