/-
Readers of bytes that may panic and that count the memory they ask for.

`Shape w r Took Panics k` is all there is to say of a reader: the bytes it takes and
what it makes of them, whatever follows; the bytes on which it panics; and that it
asks for `w` bytes of memory for each byte it reads and `k` more. It is closed under
`bind` and under reading one item after another, so that the shape of a format is
the composition of the shapes of its fields.
-/
import Twill.Lib.ByteReader
import Twill.Lib.StateExcept

namespace CountedReader

inductive Fault where
  | invalid (message : String)
  | eof
  | panic
  deriving DecidableEq

/-- The state is the bytes of memory asked for so far. -/
abbrev Work := ExceptT Fault (StateM ℕ)

abbrev Reader := ByteReader.Reader Work

variable {α β : Type}

/-- The answer, with what is unread, and the memory asked for. -/
def run (r : Reader α) (bytes : List UInt8) (asked : ℕ) : Except Fault (α × List UInt8) × ℕ :=
  StateExcept.runOn (r bytes) asked

def fail (e : Fault) : Reader α := fun _ asked => (.error e, asked)

/-- Memory that the bytes read are copied to. -/
def ask (n : ℕ) : Reader Unit := fun bytes asked => (.ok ((), bytes), asked + n)

/-- `Vec::with_capacity` of `n` items: more than `isize::MAX` bytes are a capacity overflow. -/
def withCapacity (n size : ℕ) : Reader Unit := fun bytes asked =>
  if 2 ^ 63 ≤ n * size then (.error .panic, asked) else (.ok ((), bytes), asked + n * size)

/-- The next bytes. -/
def take (short : Fault) (n : ℕ) : Reader (List UInt8) := ByteReader.take (fail short []) n

/-- The bytes up to a terminator, which is taken too. -/
def upTo (unterminated : Fault) (stop : UInt8) : Reader (List UInt8) := fun bytes =>
  match bytes.dropWhile (· ≠ stop) with
  | [] => fail unterminated []
  | _ :: rest => pure (bytes.takeWhile (· ≠ stop), rest)

/-- What is read, with so many bytes of memory for each byte of it. -/
def copying (factor : ℕ) (r : Reader (List UInt8)) : Reader (List UInt8) := do
  let bytes ← r
  ask (factor * bytes.length)
  return bytes

/-- Reading of a buffer of its own; what it leaves there is dropped. -/
def within (buffer : List UInt8) (r : Reader α) : Reader α := fun rest => (fun p => (p.1, rest)) <$> r buffer

@[simp] theorem run_pure (a : α) (bytes : List UInt8) (asked : ℕ) : run (pure a) bytes asked = (.ok (a, bytes), asked) := rfl

@[simp] theorem run_fail (e : Fault) (bytes : List UInt8) (asked : ℕ) :
    run (fail e : Reader α) bytes asked = (.error e, asked) := rfl

theorem run_bind (r : Reader α) (f : α → Reader β) (bytes : List UInt8) (asked : ℕ) :
    run (r >>= f) bytes asked = match run r bytes asked with
      | (.ok (a, rest), asked') => run (f a) rest asked'
      | (.error e, asked') => (.error e, asked') := by
  change StateExcept.runOn (r bytes >>= fun p => f p.1 p.2) asked = _
  rw [StateExcept.run_bind, run]
  rcases StateExcept.runOn (r bytes) asked with ⟨e | ⟨a, rest⟩, asked'⟩ <;> rfl

theorem run_ask (n : ℕ) (bytes : List UInt8) (asked : ℕ) : run (ask n) bytes asked = (.ok ((), bytes), asked + n) := rfl

theorem run_atEnd (bytes : List UInt8) (asked : ℕ) :
    run ByteReader.atEnd bytes asked = (.ok (bytes.isEmpty, bytes), asked) := rfl

theorem run_map (r : Reader α) (g : α → β) (bytes : List UInt8) (asked : ℕ) :
    run (g <$> r) bytes asked = match run r bytes asked with
      | (.ok (a, rest), asked') => (.ok (g a, rest), asked')
      | (.error e, asked') => (.error e, asked') := by
  rw [← bind_pure_comp, run_bind]
  rfl

theorem run_upTo (e : Fault) (stop : UInt8) (bytes : List UInt8) (asked : ℕ) :
    run (upTo e stop) bytes asked = match bytes.dropWhile (· ≠ stop) with
      | [] => (.error e, asked)
      | _ :: rest => (.ok (bytes.takeWhile (· ≠ stop), rest), asked) := by
  rw [run, upTo]
  split <;> rfl

theorem run_within (buffer : List UInt8) (r : Reader α) (bytes : List UInt8) (asked : ℕ) :
    run (within buffer r) bytes asked = match run r buffer asked with
      | (.ok (a, _), asked') => (.ok (a, bytes), asked')
      | (.error e, asked') => (.error e, asked') := by
  rw [run, within, map_eq_pure_bind, StateExcept.run_bind, run]
  rcases StateExcept.runOn (r buffer) asked with ⟨e | ⟨a, rest⟩, asked'⟩ <;> rfl

theorem run_withCapacity (n size : ℕ) (bytes : List UInt8) (asked : ℕ) :
    run (withCapacity n size) bytes asked =
      if 2 ^ 63 ≤ n * size then (.error .panic, asked) else (.ok ((), bytes), asked + n * size) := rfl

theorem run_take (short : Fault) (n : ℕ) (bytes : List UInt8) (asked : ℕ) :
    run (take short n) bytes asked =
      if n ≤ bytes.length then (.ok (bytes.take n, bytes.drop n), asked) else (.error short, asked) := by
  change StateExcept.runOn (if n ≤ bytes.length then _ else _) asked = _
  split <;> rfl

/-! ## What a reader does -/

/-- Everything about a reader: the bytes it takes as what, the bytes on which it panics, and its memory. -/
structure Shape (w : ℕ) (r : Reader α) (Took : List UInt8 → α → Prop) (Panics : List UInt8 → Prop) (k : ℕ) : Prop where
  reads : ∀ {taken a}, Took taken a → ∀ rest asked, ∃ asked', run r (taken ++ rest) asked = (.ok (a, rest), asked')
  took : ∀ {bytes asked a rest asked'}, run r bytes asked = (.ok (a, rest), asked') →
    ∃ taken, bytes = taken ++ rest ∧ Took taken a ∧ asked' ≤ asked + w * taken.length + k
  panics : ∀ bytes asked, (run r bytes asked).1 = .error .panic ↔ Panics bytes
  cost : ∀ bytes asked, (run r bytes asked).2 ≤ asked + w * bytes.length + k

namespace Shape

variable {w w' k k' : ℕ} {r : Reader α} {f : α → Reader β} {Took Took' : List UInt8 → α → Prop}
  {Panics Panics' : List UInt8 → Prop}

theorem mono (h : Shape w r Took Panics k) (hw : w ≤ w') (hk : k ≤ k') (htook : ∀ bytes a, Took bytes a ↔ Took' bytes a)
    (hpanics : ∀ bytes, Panics bytes ↔ Panics' bytes) : Shape w' r Took' Panics' k' where
  reads ht := h.reads ((htook _ _).2 ht)
  took hrun := by
    obtain ⟨taken, heq, ht, hcost⟩ := h.took hrun
    have hweight := Nat.mul_le_mul_right taken.length hw
    exact ⟨taken, heq, (htook _ _).1 ht, by omega⟩
  panics bytes asked := (h.panics bytes asked).trans (hpanics bytes)
  cost bytes asked := by
    have hweight := Nat.mul_le_mul_right bytes.length hw
    exact (h.cost bytes asked).trans (by omega)

theorem pure (a : α) : Shape w (Pure.pure a) (fun bytes b => bytes = [] ∧ b = a) (fun _ => False) 0 where
  reads := by
    rintro _ _ ⟨rfl, rfl⟩ rest asked
    exact ⟨asked, rfl⟩
  took := by
    intro bytes asked b rest asked' h
    rw [run_pure] at h
    cases h
    exact ⟨[], rfl, ⟨rfl, rfl⟩, by omega⟩
  panics bytes asked := by simp
  cost bytes asked := by
    rw [run_pure]
    exact le_add_right (le_add_right le_rfl)

theorem fail (e : Fault) (he : e ≠ .panic) : Shape w (CountedReader.fail e : Reader α) (fun _ _ => False) (fun _ => False) 0 where
  reads h := h.elim
  took h := by
    rw [run_fail] at h
    cases h
  panics bytes asked := by simp [he]
  cost bytes asked := by
    rw [run_fail]
    exact le_add_right (le_add_right le_rfl)

/-- What follows needs to be known for what can have been read only. -/
theorem bind {Took₂ : α → List UInt8 → β → Prop} {Panics₂ : α → List UInt8 → Prop} (hr : Shape w r Took Panics k)
    (hf : ∀ bytes a, Took bytes a → Shape w (f a) (Took₂ a) (Panics₂ a) k') :
    Shape w (r >>= f) (fun bytes b => ∃ x y a, bytes = x ++ y ∧ Took x a ∧ Took₂ a y b)
      (fun bytes => Panics bytes ∨ ∃ x y a, bytes = x ++ y ∧ Took x a ∧ Panics₂ a y) (k + k') where
  reads := by
    rintro _ b ⟨x, y, a, rfl, hx, hy⟩ rest asked
    obtain ⟨asked₁, h₁⟩ := hr.reads hx (y ++ rest) asked
    obtain ⟨asked₂, h₂⟩ := (hf x a hx).reads hy rest asked₁
    exact ⟨asked₂, by rw [run_bind, List.append_assoc, h₁]; exact h₂⟩
  took := by
    intro bytes asked b rest asked' h
    rw [run_bind] at h
    split at h
    · next a mid asked₁ h₁ =>
      obtain ⟨x, rfl, hx, hcost⟩ := hr.took h₁
      obtain ⟨y, rfl, hy, hcost'⟩ := (hf x a hx).took h
      refine ⟨x ++ y, (List.append_assoc ..).symm, ⟨x, y, a, rfl, hx, hy⟩, ?_⟩
      rw [List.length_append, Nat.mul_add]
      omega
    · cases h
  panics := by
    intro bytes asked
    rw [run_bind]
    constructor
    · intro h
      split at h
      · next a mid asked₁ h₁ =>
        obtain ⟨x, rfl, hx, -⟩ := hr.took h₁
        exact .inr ⟨x, mid, a, rfl, hx, ((hf x a hx).panics mid asked₁).1 h⟩
      · next e asked₁ h₁ =>
        refine .inl ((hr.panics bytes asked).1 ?_)
        rw [h₁]
        exact congrArg Except.error (by cases h; rfl)
    · rintro (hp | ⟨x, y, a, rfl, hx, hy⟩)
      · have h := (hr.panics bytes asked).2 hp
        split
        · next h₁ => rw [h₁] at h; cases h
        · next h₁ => rw [h₁] at h; cases h; rfl
      · obtain ⟨asked₁, h₁⟩ := hr.reads hx y asked
        rw [h₁]
        exact ((hf x a hx).panics y asked₁).2 hy
  cost := by
    intro bytes asked
    rw [run_bind]
    split
    · next a mid asked₁ h₁ =>
      obtain ⟨x, rfl, hx, hcost⟩ := hr.took h₁
      have hcost' := (hf x a hx).cost mid asked₁
      rw [List.length_append, Nat.mul_add]
      omega
    · next e asked₁ h₁ =>
      have hcost := hr.cost bytes asked
      rw [h₁] at hcost
      exact hcost.trans (by omega)

theorem map (hr : Shape w r Took (fun _ => False) k) (g : α → β) :
    Shape w (g <$> r) (fun bytes b => ∃ a, Took bytes a ∧ b = g a) (fun _ => False) k := by
  have h := hr.bind fun bytes a _ => Shape.pure (w := w) (g a)
  rw [bind_pure_comp] at h
  refine h.mono le_rfl (by omega) (fun bytes b => ?_) (by simp)
  constructor
  · rintro ⟨x, y, a, rfl, hx, rfl, rfl⟩
    rw [List.append_nil]
    exact ⟨a, hx, rfl⟩
  · rintro ⟨a, ha, rfl⟩
    exact ⟨bytes, [], a, by rw [List.append_nil], ha, rfl, rfl⟩

theorem withCapacity (n size : ℕ) (hfit : n * size < 2 ^ 63) :
    Shape w (CountedReader.withCapacity n size) (fun bytes _ => bytes = []) (fun _ => False) (n * size) where
  reads := by
    rintro _ _ rfl rest asked
    exact ⟨asked + n * size, by rw [run_withCapacity, if_neg (by omega)]; rfl⟩
  took := by
    intro bytes asked a rest asked' h
    rw [run_withCapacity, if_neg (by omega)] at h
    cases h
    exact ⟨[], rfl, rfl, by omega⟩
  panics bytes asked := by
    rw [run_withCapacity, if_neg (by omega)]
    simp
  cost bytes asked := by
    rw [run_withCapacity, if_neg (by omega)]
    dsimp only
    omega

theorem overflow (n size : ℕ) (hover : 2 ^ 63 ≤ n * size) :
    Shape w (CountedReader.withCapacity n size) (fun _ _ => False) (fun _ => True) 0 where
  reads h := h.elim
  took h := by
    rw [run_withCapacity, if_pos hover] at h
    cases h
  panics bytes asked := by
    rw [run_withCapacity, if_pos hover]
    simp
  cost bytes asked := by
    rw [run_withCapacity, if_pos hover]
    exact le_add_right (le_add_right le_rfl)

theorem take (short : Fault) (hshort : short ≠ .panic) (n : ℕ) :
    Shape w (CountedReader.take short n) (fun bytes a => bytes.length = n ∧ a = bytes) (fun _ => False) 0 where
  reads := by
    rintro bytes _ ⟨rfl, rfl⟩ rest asked
    refine ⟨asked, ?_⟩
    rw [run_take, if_pos (by simp), List.take_left, List.drop_left]
  took := by
    intro bytes asked a rest asked' h
    rw [run_take] at h
    split at h
    · next hle =>
      cases h
      exact ⟨bytes.take n, (List.take_append_drop n bytes).symm, ⟨List.length_take_of_le hle, rfl⟩, by omega⟩
    · cases h
  panics bytes asked := by
    rw [run_take]
    split
    · simp
    · simp [hshort]
  cost bytes asked := by
    rw [run_take]
    split <;> exact le_add_right (le_add_right le_rfl)

theorem upTo (e : Fault) (he : e ≠ .panic) (stop : UInt8) :
    Shape w (CountedReader.upTo e stop) (fun bytes a => bytes = a ++ [stop] ∧ stop ∉ a) (fun _ => False) 0 where
  reads := by
    rintro _ a ⟨rfl, hstop⟩ rest asked
    have hpass : ∀ b ∈ a, decide (b ≠ stop) = true := fun b hb => decide_eq_true fun heq => hstop (heq ▸ hb)
    refine ⟨asked, ?_⟩
    rw [run_upTo, List.append_assoc, List.dropWhile_append_of_pos hpass, List.takeWhile_append_of_pos hpass]
    simp
  took := by
    intro bytes asked a rest asked' h
    rw [run_upTo] at h
    split at h
    · cases h
    · next b rest' hdrop =>
      have hhead := List.head?_dropWhile_not (fun b => decide (b ≠ stop)) bytes
      rw [hdrop] at hhead
      cases h
      have hb : b = stop := by simpa using hhead
      refine ⟨bytes.takeWhile (· ≠ stop) ++ [stop], ?_, ⟨rfl, fun hmem => ?_⟩, by omega⟩
      · have hsplit : bytes.takeWhile (· ≠ stop) ++ bytes.dropWhile (· ≠ stop) = bytes :=
          List.takeWhile_append_dropWhile
        rw [hdrop, hb] at hsplit
        rw [List.append_assoc]
        exact hsplit.symm
      · have hne := List.mem_takeWhile_imp hmem
        simp at hne
  panics bytes asked := by
    rw [run_upTo]
    split
    · simp [he]
    · simp
  cost bytes asked := by
    rw [run_upTo]
    split <;> exact le_add_right (le_add_right le_rfl)

theorem copying {r : Reader (List UInt8)} {Took : List UInt8 → List UInt8 → Prop} (hr : Shape 0 r Took (fun _ => False) 0)
    (hlen : ∀ x a, Took x a → a.length ≤ x.length) (factor : ℕ) :
    Shape factor (CountedReader.copying factor r) Took (fun _ => False) 0 where
  reads := by
    intro taken a ht rest asked
    obtain ⟨asked₁, h₁⟩ := hr.reads ht rest asked
    refine ⟨asked₁ + factor * a.length, ?_⟩
    rw [CountedReader.copying, run_bind, h₁]
    rfl
  took := by
    intro bytes asked a rest asked' h
    rw [CountedReader.copying, run_bind] at h
    split at h
    · next a₁ rest₁ asked₁ h₁ =>
      obtain ⟨taken, heq, ht, hcost⟩ := hr.took h₁
      have hfactor := Nat.mul_le_mul_left factor (hlen _ _ ht)
      cases h
      exact ⟨taken, heq, ht, by omega⟩
    · cases h
  panics bytes asked := by
    rw [CountedReader.copying, run_bind]
    have h := hr.panics bytes asked
    split
    · rw [run_bind, run_ask]
      simp
    · next e asked₁ h₁ =>
      rw [h₁] at h
      simpa using h
  cost bytes asked := by
    rw [CountedReader.copying, run_bind]
    split
    · next a rest asked₁ h₁ =>
      obtain ⟨taken, rfl, ht, hcost⟩ := hr.took h₁
      have hfactor := Nat.mul_le_mul_left factor ((hlen _ _ ht).trans (Nat.le_add_right _ rest.length))
      rw [run_bind, run_ask, List.length_append]
      dsimp only
      rw [run_pure]
      omega
    · next e asked₁ h₁ =>
      have hcost := hr.cost bytes asked
      rw [h₁] at hcost
      exact hcost.trans (by omega)

/-- One item after another. -/
inductive Items (Took : List UInt8 → α → Prop) : List UInt8 → List α → Prop
  | nil : Items Took [] []
  | cons {x y : List UInt8} {a : α} {l : List α} : Took x a → Items Took y l → Items Took (x ++ y) (a :: l)

theorem Items.flatMap {put : α → List UInt8} {l : List α} (h : ∀ a ∈ l, Took (put a) a) : Items Took (l.flatMap put) l := by
  induction l with
  | nil => exact .nil
  | cons a l ih => exact .cons (h a List.mem_cons_self) (ih fun b hb => h b (List.mem_cons_of_mem _ hb))

theorem Items.parts {bytes : List UInt8} {l : List α} (h : Items Took bytes l) :
    ∃ parts : List (List UInt8), parts.length = l.length ∧ bytes = parts.flatten ∧ ∀ x ∈ parts, ∃ a, Took x a := by
  induction h with
  | nil => exact ⟨[], rfl, rfl, by simp⟩
  | @cons x y a l hx _ ih =>
    obtain ⟨parts, hlen, rfl, hparts⟩ := ih
    refine ⟨x :: parts, congrArg (· + 1) hlen, rfl, fun z hz => ?_⟩
    rcases List.mem_cons.1 hz with rfl | hz
    · exact ⟨a, hx⟩
    · exact hparts z hz

theorem Items.of_parts {parts : List (List UInt8)} (h : ∀ x ∈ parts, ∃ a, Took x a) :
    ∃ l : List α, l.length = parts.length ∧ Items Took parts.flatten l := by
  induction parts with
  | nil => exact ⟨[], rfl, .nil⟩
  | cons x parts ih =>
    obtain ⟨a, ha⟩ := h x List.mem_cons_self
    obtain ⟨l, hlen, hl⟩ := ih fun y hy => h y (List.mem_cons_of_mem _ hy)
    exact ⟨a :: l, congrArg (· + 1) hlen, .cons ha hl⟩

theorem times (hr : Shape w r Took (fun _ => False) 0) (n : ℕ) :
    Shape w (ByteReader.times n r) (fun bytes l => l.length = n ∧ Items Took bytes l) (fun _ => False) 0 := by
  induction n with
  | zero =>
    refine (Shape.pure []).mono le_rfl le_rfl (fun bytes l => ?_) (fun _ => Iff.rfl)
    constructor
    · rintro ⟨rfl, rfl⟩
      exact ⟨rfl, .nil⟩
    · rintro ⟨hlen, hitems⟩
      cases hitems with
      | nil => exact ⟨rfl, rfl⟩
      | cons => cases hlen
  | succ n ih =>
    have h := hr.bind fun bytes a _ => ih.bind fun bytes rest _ => Shape.pure (w := w) (a :: rest)
    refine h.mono le_rfl le_rfl (fun bytes l => ?_) (by simp)
    constructor
    · rintro ⟨x, _, a, rfl, hx, y, _, l', rfl, ⟨hlen, hitems⟩, rfl, rfl⟩
      rw [List.append_nil]
      exact ⟨congrArg (· + 1) hlen, .cons hx hitems⟩
    · rintro ⟨hlen, hitems⟩
      cases hitems with
      | nil => cases hlen
      | @cons x y a l hx hitems =>
        exact ⟨x, y, a, rfl, hx, y, [], l, by rw [List.append_nil], ⟨Nat.succ.inj hlen, hitems⟩, rfl, rfl⟩

end Shape

end CountedReader
