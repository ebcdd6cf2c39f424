/-
The directory-backed object store (`storage/src/object/fs.rs`).

A conditional put checks the object, writes a temp file and renames it into
place. A mutex inside each `FsObjectStore` value keeps the calls of that value
apart; two values on one root, in one process or in two, share only the
directory. The model runs any number of calls through any number of values, one
file-system step at a time.
-/
import Twill.Storage.Types
import Twill.Lib.Transition

namespace Twill.Storage.FsStore

open Transition (RunWhere Plays)

/-- An ETag: the content's CRC and length, which the store prints as `{:08x}-{:x}`. -/
abbrev ETag := UInt32 × Nat

def etagOf (bytes : Bytes) : ETag := (crc32 bytes, bytes.length)

inductive ObjectError where
  | notFound (key : String)
  | precondition (key : String)
  | transient (message : String)
  deriving DecidableEq, Repr

/-- The precondition of a put: `put_if_absent` or `put_if_match`. -/
inductive Cond where
  | absent
  | matching (etag : ETag)
  deriving DecidableEq, Repr

/-- The check on the object as it stands. -/
def Cond.passes : Cond → Option Bytes → Bool
  | .absent, object => object.isNone
  | .matching _, none => false
  | .matching etag, some bytes => etagOf bytes == etag

def segments (key : String) : List (List Char) := key.toList.splitOn '/'

/-- Whether `path_for` accepts a key: no empty key, no `.` or `..` segment. -/
def pathFor (key : String) : Bool :=
  !key.isEmpty && !(segments key).any fun seg => seg == ['.', '.'] || seg == ['.']

/-- A temp file's name: `.tmp-{pid}-{n}` in the object's directory. -/
structure Temp where
  pid : Nat
  n : Nat
  dir : List (List Char)
  deriving DecidableEq, Repr

/-- A conditional put through one store value. -/
structure Call where
  value : Nat
  cond : Cond
  key : String
  bytes : Bytes

inductive Phase where
  | waiting
  /-- Holds the value's lock. -/
  | locked
  /-- The check has passed. -/
  | checked
  /-- The bytes are in a temp file. -/
  | staged (temp : Temp)
  | done (result : Except ObjectError ETag)

structure Dir where
  objects : String → Option Bytes
  temps : Temp → Option Bytes
  /-- The call that holds each value's `cas_lock`. -/
  lock : Nat → Option Nat
  /-- Each value's `tmp_seq`. -/
  tmpSeq : Nat → Nat
  phase : Nat → Phase

inductive FsAct where
  | lock (i : Nat)
  | check (i : Nat)
  | stage (i : Nat)
  | rename (i : Nat)
  /-- An I/O error; a temp file may stay behind. -/
  | fail (i : Nat) (leave : Bool)

section

-- The calls of the run, and the process each store value lives in.
variable (calls : Nat → Call) (pid : Nat → Nat)

namespace Dir

def setPhase (σ : Dir) (i : Nat) (p : Phase) : Dir := { σ with phase := Function.update σ.phase i p }

def setTemp (σ : Dir) (t : Temp) (bytes : Option Bytes) : Dir :=
  { σ with temps := Function.update σ.temps t bytes }

/-- The call returns, dropping its guard. -/
def finish (σ : Dir) (i : Nat) (r : Except ObjectError ETag) : Dir :=
  { σ.setPhase i (.done r) with lock := Function.update σ.lock (calls i).value none }

/-- One file-system step of one call. -/
def step (σ : Dir) : FsAct → Option Dir
  | .lock i => match σ.phase i with
    | .waiting =>
      if pathFor (calls i).key = false then
        some (σ.setPhase i (.done (.error (.transient s!"invalid object key: {(calls i).key}"))))
      else match σ.lock (calls i).value with
        | none =>
          some ({ σ with lock := Function.update σ.lock (calls i).value (some i) }.setPhase i .locked)
        | some _ => none
    | _ => none
  | .check i => match σ.phase i with
    | .locked =>
      if (calls i).cond.passes (σ.objects (calls i).key) then some (σ.setPhase i .checked)
      else some (σ.finish calls i (.error (.precondition (calls i).key)))
    | _ => none
  | .stage i => match σ.phase i with
    | .checked =>
      let v := (calls i).value
      let t : Temp := ⟨pid v, σ.tmpSeq v, (segments (calls i).key).dropLast⟩
      let σ := { σ with tmpSeq := Function.update σ.tmpSeq v (σ.tmpSeq v + 1) }
      if (σ.temps t).isSome then some (σ.finish calls i (.error (.transient "create tmp")))
      else some ((σ.setTemp t (some (calls i).bytes)).setPhase i (.staged t))
    | _ => none
  | .rename i => match σ.phase i with
    | .staged t =>
      let σ := { σ with objects := Function.update σ.objects (calls i).key (σ.temps t) }
      some ((σ.setTemp t none).finish calls i (.ok (etagOf (calls i).bytes)))
    | _ => none
  | .fail i leave => match σ.phase i with
    | .checked => some (σ.finish calls i (.error (.transient "write tmp")))
    | .staged t =>
      let σ := if leave then σ else σ.setTemp t none
      some (σ.finish calls i (.error (.transient "rename")))
    | _ => none

/-- A directory with some objects and no call begun. -/
def start (objects : String → Option Bytes) : Dir :=
  ⟨objects, fun _ => none, fun _ => none, fun _ => 0, fun _ => .waiting⟩

def isOk (σ : Dir) (i : Nat) : Prop := ∃ etag, σ.phase i = .done (.ok etag)

/-- The call stands between its check and its rename. -/
def inWindow (σ : Dir) (i : Nat) : Prop := σ.phase i = .checked ∨ ∃ t, σ.phase i = .staged t

/-- At most one call on the key returns `Ok`, and the object is what it wrote. -/
def AtMostOne (σ : Dir) (key : String) : Prop :=
  (∀ i j, (calls i).key = key → (calls j).key = key → σ.isOk i → σ.isOk j → i = j) ∧
    ∀ i, (calls i).key = key → σ.isOk i → σ.objects key = some (calls i).bytes

/-- No call checks a key while a call of another value stands between its check
of that key and its rename. -/
def Apart (σ : Dir) : FsAct → Prop
  | .check i => ∀ j, (calls j).key = (calls i).key → (calls j).value ≠ (calls i).value → ¬ σ.inWindow j
  | _ => True

/-! ## What keeps the calls apart -/

/-- The bookkeeping of every run: whoever has the lock is recorded as its
holder, and a staged call's bytes are in a temp file of its own. -/
structure Orderly (σ : Dir) : Prop where
  lock : ∀ i, σ.phase i = .locked ∨ σ.inWindow i → σ.lock (calls i).value = some i
  temp : ∀ i t, σ.phase i = .staged t → σ.temps t = some (calls i).bytes
  own : ∀ i j t, σ.phase i = .staged t → σ.phase j = .staged t → i = j

/-- On one key: one call at a time past its check, on an object that still
passes, and a call that returned `Ok` has its bytes in place. -/
structure Exclusive (σ : Dir) (key : String) (cond : Cond) : Prop where
  alone : ∀ i j, (calls i).key = key → (calls j).key = key → σ.inWindow i → σ.inWindow j → i = j
  passes : ∀ i, (calls i).key = key → σ.inWindow i → cond.passes (σ.objects key) = true
  one : ∀ i j, (calls i).key = key → (calls j).key = key → σ.isOk i → σ.isOk j → i = j
  stored : ∀ i, (calls i).key = key → σ.isOk i → σ.objects key = some (calls i).bytes

variable {calls : Nat → Call} {pid : Nat → Nat} {σ τ : Dir} {i j : Nat} {key : String} {cond : Cond}

theorem inWindow_setPhase {p : Phase} :
    (σ.setPhase i p).inWindow j ↔ if j = i then p = .checked ∨ ∃ t, p = .staged t else σ.inWindow j := by
  simp only [inWindow, setPhase, Function.update_apply]
  split_ifs <;> rfl

theorem isOk_setPhase {p : Phase} :
    (σ.setPhase i p).isOk j ↔ if j = i then ∃ etag, p = .done (.ok etag) else σ.isOk j := by
  simp only [isOk, setPhase, Function.update_apply]
  split_ifs <;> rfl

theorem phase_setPhase {p : Phase} : (σ.setPhase i p).phase j = if j = i then p else σ.phase j :=
  Function.update_apply ..

/-- A call that returns leaves the window and the lock. -/
theorem Orderly.finish (h : Orderly calls σ) {r : Except ObjectError ETag} {objects : String → Option Bytes}
    {temps : Temp → Option Bytes} {tmpSeq : Nat → Nat} (hi : σ.phase i = .locked ∨ σ.inWindow i)
    (htemps : ∀ j t, j ≠ i → σ.phase j = .staged t → temps t = σ.temps t) :
    Orderly calls (({ σ with objects, temps, tmpSeq } : Dir).finish calls i r) := by
  have hlock := h.lock i hi
  refine ⟨fun j hj => ?_, fun j t hj => ?_, fun j k t hj hk => ?_⟩
  · have hne : j ≠ i := by
      rintro rfl
      simp [Dir.finish, setPhase, inWindow] at hj
    have hj' : σ.phase j = .locked ∨ σ.inWindow j := by
      simpa [Dir.finish, setPhase, inWindow, Function.update_of_ne hne] using hj
    have hv : (calls j).value ≠ (calls i).value := by
      intro heq
      have := h.lock j hj'
      rw [heq, hlock] at this
      exact hne (Option.some.inj this).symm
    simpa [Dir.finish, Function.update_of_ne hv] using h.lock j hj'
  · have hne : j ≠ i := by
      rintro rfl
      simp [Dir.finish, setPhase] at hj
    have hj' : σ.phase j = .staged t := by
      simpa [Dir.finish, setPhase, Function.update_of_ne hne] using hj
    show temps t = _
    rw [htemps j t hne hj', h.temp j t hj']
  · have hne : ∀ l, (({ σ with objects, temps, tmpSeq } : Dir).finish calls i r).phase l = .staged t →
        σ.phase l = .staged t := by
      intro l hl
      have hli : l ≠ i := by
        rintro rfl
        simp [Dir.finish, setPhase] at hl
      simpa [Dir.finish, setPhase, Function.update_of_ne hli] using hl
    exact h.own j k t (hne j hj) (hne k hk)

/-- A call that moves to a phase without a temp file. -/
theorem Orderly.setPhase (h : Orderly calls σ) {p : Phase} {lock : Nat → Option Nat} (hp : ∀ t, p ≠ .staged t)
    (hlock : ∀ j, (if j = i then p = .locked ∨ p = .checked else σ.phase j = .locked ∨ σ.inWindow j) →
      lock (calls j).value = some j) : Orderly calls (({ σ with lock } : Dir).setPhase i p) := by
  have hstaged : ∀ j t, (({ σ with lock } : Dir).setPhase i p).phase j = .staged t → σ.phase j = .staged t := by
    intro j t hj
    rw [phase_setPhase] at hj
    split_ifs at hj
    · exact absurd hj (hp t)
    · exact hj
  refine ⟨fun j hj => hlock j ?_, fun j t hj => h.temp j t (hstaged j t hj),
    fun j k t hj hk => h.own j k t (hstaged j t hj) (hstaged k t hk)⟩
  rw [phase_setPhase, inWindow_setPhase] at hj
  split_ifs at hj ⊢ with hji
  · rcases hj with hj | hj | ⟨t, hj⟩
    · exact .inl hj
    · exact .inr hj
    · exact absurd hj (hp t)
  · exact hj

theorem Orderly.step {a : FsAct} (h : Orderly calls σ) (hstep : σ.step calls pid a = some τ) :
    Orderly calls τ := by
  cases a with
  | lock i =>
    simp only [Dir.step] at hstep
    split at hstep
    · next hi =>
      split_ifs at hstep with hpath
      · obtain rfl := Option.some.inj hstep
        refine h.setPhase (by simp) fun j hj => ?_
        split_ifs at hj with hji
        · simp at hj
        · exact h.lock j hj
      · split at hstep
        · next hfree =>
          obtain rfl := Option.some.inj hstep
          refine h.setPhase (by simp) fun j hj => ?_
          split_ifs at hj with hji
          · rw [hji, Function.update_self]
          · have hlock := h.lock j hj
            have hv : (calls j).value ≠ (calls i).value := by
              intro heq
              rw [heq, hfree] at hlock
              cases hlock
            rw [Function.update_of_ne hv, hlock]
        · cases hstep
    · cases hstep
  | check i =>
    simp only [Dir.step] at hstep
    split at hstep
    · next hi =>
      split_ifs at hstep with hpass
      · obtain rfl := Option.some.inj hstep
        refine h.setPhase (by simp) fun j hj => ?_
        split_ifs at hj with hji
        · rw [hji]
          exact h.lock i (.inl hi)
        · exact h.lock j hj
      · obtain rfl := Option.some.inj hstep
        exact h.finish (.inl hi) fun _ _ _ _ => rfl
    · cases hstep
  | stage i =>
    simp only [Dir.step] at hstep
    split at hstep
    · next hi =>
      split_ifs at hstep with hclash
      · obtain rfl := Option.some.inj hstep
        exact h.finish (.inr (.inl hi)) fun _ _ _ _ => rfl
      · obtain rfl := Option.some.inj hstep
        set t : Temp := ⟨pid (calls i).value, σ.tmpSeq (calls i).value, (segments (calls i).key).dropLast⟩
        -- The temp file is new, so no staged call has it.
        have hfree : ∀ j, σ.phase j ≠ .staged t := by
          intro j hj
          simp [h.temp j t hj] at hclash
        refine ⟨fun j hj => ?_, fun j t' hj => ?_, fun j k t' hj hk => ?_⟩
        · rw [phase_setPhase, inWindow_setPhase] at hj
          by_cases hji : j = i
          · subst hji
            exact h.lock j (.inr (.inl hi))
          · simp only [hji, if_false] at hj
            exact h.lock j hj
        · rw [phase_setPhase] at hj
          by_cases hji : j = i
          · subst hji
            obtain rfl : t = t' := by simpa using hj
            simp [Dir.setPhase, setTemp]
          · rw [if_neg hji] at hj
            have hne : t' ≠ t := by
              rintro rfl
              exact hfree j hj
            simpa [Dir.setPhase, setTemp, Function.update_of_ne hne] using h.temp j t' hj
        · rw [phase_setPhase] at hj hk
          split_ifs at hj hk with hji hki hki
          · rw [hji, hki]
          · obtain rfl : t = t' := by simpa using hj
            exact absurd hk (hfree k)
          · obtain rfl : t = t' := by simpa using hk
            exact absurd hj (hfree j)
          · exact h.own j k t' hj hk
    · cases hstep
  | rename i =>
    simp only [Dir.step] at hstep
    split at hstep
    · next t hi =>
      obtain rfl := Option.some.inj hstep
      refine h.finish (.inr (.inr ⟨t, hi⟩)) fun j t' hne hj => ?_
      refine Function.update_of_ne ?_ _ _
      rintro rfl
      exact hne (h.own j i t' hj hi)
    · cases hstep
  | fail i leave =>
    simp only [Dir.step] at hstep
    split at hstep
    · next hi =>
      obtain rfl := Option.some.inj hstep
      exact h.finish (.inr (.inl hi)) fun _ _ _ _ => rfl
    · next t hi =>
      obtain rfl := Option.some.inj hstep
      cases leave with
      | true => exact h.finish (.inr (.inr ⟨t, hi⟩)) fun _ _ _ _ => rfl
      | false =>
        refine h.finish (.inr (.inr ⟨t, hi⟩)) fun j t' hne hj => ?_
        refine Function.update_of_ne ?_ _ _
        rintro rfl
        exact hne (h.own j i t' hj hi)
    · cases hstep

/-- A call that returns an error, or moves on before its check, changes nothing
on any key. -/
theorem Exclusive.setPhase (h : Exclusive calls σ key cond) {p : Phase} {lock : Nat → Option Nat}
    {temps : Temp → Option Bytes} {tmpSeq : Nat → Nat} (hok : ∀ etag, p ≠ .done (.ok etag))
    (hwindow : (p = .checked ∨ ∃ t, p = .staged t) → σ.inWindow i) :
    Exclusive calls ({ σ with lock, temps, tmpSeq, phase := Function.update σ.phase i p } : Dir) key cond := by
  have hw : ∀ j, ({ σ with lock, temps, tmpSeq, phase := Function.update σ.phase i p } : Dir).inWindow j →
      σ.inWindow j := by
    intro j hj
    replace hj := (inWindow_setPhase (σ := σ)).1 hj
    split_ifs at hj with hji
    · rw [hji]
      exact hwindow hj
    · exact hj
  have ho : ∀ j, ({ σ with lock, temps, tmpSeq, phase := Function.update σ.phase i p } : Dir).isOk j →
      σ.isOk j := by
    intro j hj
    replace hj := (isOk_setPhase (σ := σ)).1 hj
    split_ifs at hj with hji
    · obtain ⟨etag, hetag⟩ := hj
      exact absurd hetag (hok etag)
    · exact hj
  exact ⟨fun j k hj hk hwj hwk => h.alone j k hj hk (hw j hwj) (hw k hwk), fun j hj hwj => h.passes j hj (hw j hwj),
    fun j k hj hk hoj hok => h.one j k hj hk (ho j hoj) (ho k hok), fun j hj hoj => h.stored j hj (ho j hoj)⟩

/-- A call that passes its check while no other is past its own on that key. -/
theorem Exclusive.check (h : Exclusive calls σ key cond) (horderly : Orderly calls σ)
    (hcond : ∀ i, (calls i).key = key → (calls i).cond = cond) (hi : σ.phase i = .locked)
    (hapart : σ.Apart calls (.check i)) (hpass : (calls i).cond.passes (σ.objects (calls i).key) = true) :
    Exclusive calls (σ.setPhase i .checked) key cond := by
  have hquiet : ∀ j, (calls j).key = (calls i).key → ¬ σ.inWindow j := by
    intro j hj hwindow
    by_cases hv : (calls j).value = (calls i).value
    · -- Both calls of one value: only one of them has the lock.
      have hlock := horderly.lock j (.inr hwindow)
      rw [hv, horderly.lock i (.inl hi)] at hlock
      obtain rfl := Option.some.inj hlock
      rcases hwindow with hw | ⟨t, hw⟩
      · rw [hi] at hw
        cases hw
      · rw [hi] at hw
        cases hw
    · exact hapart j hj hv hwindow
  have hok : ∀ j, (σ.setPhase i .checked).isOk j → σ.isOk j := by
    intro j hj
    rw [isOk_setPhase] at hj
    split_ifs at hj with hji
    · obtain ⟨etag, hetag⟩ := hj
      cases hetag
    · exact hj
  have honly : ∀ j, (calls j).key = key → (σ.setPhase i .checked).inWindow j →
      ((calls i).key = key → j = i) ∧ ((calls i).key ≠ key → σ.inWindow j) := by
    intro j hj hwindow
    rw [inWindow_setPhase] at hwindow
    split_ifs at hwindow with hji
    · rw [hji] at hj
      exact ⟨fun _ => hji, fun hne => absurd hj hne⟩
    · refine ⟨fun hkey => ?_, fun _ => hwindow⟩
      exact absurd hwindow (hquiet j (hj.trans hkey.symm))
  refine ⟨fun j k hj hk hwj hwk => ?_, fun j hj hwj => ?_,
    fun j k hj hk hoj hok' => h.one j k hj hk (hok j hoj) (hok k hok'), fun j hj hoj => h.stored j hj (hok j hoj)⟩
  · by_cases hkey : (calls i).key = key
    · rw [(honly j hj hwj).1 hkey, (honly k hk hwk).1 hkey]
    · exact h.alone j k hj hk ((honly j hj hwj).2 hkey) ((honly k hk hwk).2 hkey)
  · by_cases hkey : (calls i).key = key
    · rw [← hcond i hkey, ← hkey]
      exact hpass
    · exact h.passes j hj ((honly j hj hwj).2 hkey)

/-- A rename puts the bytes of the only call past its check in place, and no call
that checks afterwards passes. -/
theorem Exclusive.rename (h : Exclusive calls σ key cond) (horderly : Orderly calls σ)
    (hfresh : ∀ i, (calls i).key = key → cond.passes (some (calls i).bytes) = false) {t : Temp} {etag : ETag}
    (hi : σ.phase i = .staged t) {lock : Nat → Option Nat} {temps : Temp → Option Bytes} :
    Exclusive calls (({ σ with
      objects := Function.update σ.objects (calls i).key (σ.temps t), temps, lock } : Dir).setPhase i
        (.done (.ok etag))) key cond := by
  have hin : σ.inWindow i := .inr ⟨t, hi⟩
  have hwindow : ∀ j, (({ σ with
      objects := Function.update σ.objects (calls i).key (σ.temps t), temps, lock } : Dir).setPhase i
        (.done (.ok etag))).inWindow j → j ≠ i ∧ σ.inWindow j := by
    intro j hj
    rw [inWindow_setPhase] at hj
    split_ifs at hj with hji
    · simp at hj
    · exact ⟨hji, hj⟩
  have hisOk : ∀ j, (({ σ with
      objects := Function.update σ.objects (calls i).key (σ.temps t), temps, lock } : Dir).setPhase i
        (.done (.ok etag))).isOk j → j = i ∨ σ.isOk j := by
    intro j hj
    rw [isOk_setPhase] at hj
    split_ifs at hj with hji
    · exact .inl hji
    · exact .inr hj
  by_cases hkey : (calls i).key = key
  · -- Whoever returned `Ok` before left bytes that this call's check would have refused.
    have hnone : ∀ j, (calls j).key = key → ¬ σ.isOk j := by
      intro j hj hjok
      have hpass := h.passes i hkey hin
      rw [h.stored j hj hjok, hfresh j hj] at hpass
      cases hpass
    have honly : ∀ j, (calls j).key = key → (({ σ with
        objects := Function.update σ.objects (calls i).key (σ.temps t), temps, lock } : Dir).setPhase i
          (.done (.ok etag))).isOk j → j = i := by
      intro j hj hjok
      exact (hisOk j hjok).resolve_right (hnone j hj)
    refine ⟨fun j k hj hk hwj _ => ?_, fun j hj hwj => ?_, fun j k hj hk hoj hok => ?_, fun j hj hoj => ?_⟩
    · obtain ⟨hne, hw⟩ := hwindow j hwj
      exact absurd (h.alone j i hj hkey hw hin) hne
    · obtain ⟨hne, hw⟩ := hwindow j hwj
      exact absurd (h.alone j i hj hkey hw hin) hne
    · rw [honly j hj hoj, honly k hk hok]
    · rw [honly j hj hoj, ← hkey]
      show Function.update σ.objects (calls i).key (σ.temps t) (calls i).key = _
      rw [Function.update_self, horderly.temp i t hi]
  · have hobject : Function.update σ.objects (calls i).key (σ.temps t) key = σ.objects key :=
      Function.update_of_ne (Ne.symm hkey) _ _
    have hother : ∀ j, (calls j).key = key → (({ σ with
        objects := Function.update σ.objects (calls i).key (σ.temps t), temps, lock } : Dir).setPhase i
          (.done (.ok etag))).isOk j → σ.isOk j := by
      intro j hj hjok
      rcases hisOk j hjok with rfl | hok
      · exact absurd hj hkey
      · exact hok
    refine ⟨fun j k hj hk hwj hwk => h.alone j k hj hk (hwindow j hwj).2 (hwindow k hwk).2, fun j hj hwj => ?_,
      fun j k hj hk hoj hok => h.one j k hj hk (hother j hj hoj) (hother k hk hok), fun j hj hoj => ?_⟩
    · show cond.passes (Function.update σ.objects (calls i).key (σ.temps t) key) = true
      rw [hobject]
      exact h.passes j hj (hwindow j hwj).2
    · show Function.update σ.objects (calls i).key (σ.temps t) key = _
      rw [hobject]
      exact h.stored j hj (hother j hj hoj)

theorem Exclusive.step {a : FsAct} (h : Exclusive calls σ key cond) (horderly : Orderly calls σ)
    (hcond : ∀ i, (calls i).key = key → (calls i).cond = cond)
    (hfresh : ∀ i, (calls i).key = key → cond.passes (some (calls i).bytes) = false)
    (hapart : σ.Apart calls a) (hstep : σ.step calls pid a = some τ) : Exclusive calls τ key cond := by
  cases a with
  | lock i =>
    simp only [Dir.step] at hstep
    split at hstep
    · split_ifs at hstep with hpath
      · obtain rfl := Option.some.inj hstep
        exact h.setPhase (by simp) (by simp)
      · split at hstep
        · obtain rfl := Option.some.inj hstep
          exact h.setPhase (by simp) (by simp)
        · cases hstep
    · cases hstep
  | check i =>
    simp only [Dir.step] at hstep
    split at hstep
    · next hi =>
      split_ifs at hstep with hpass
      · obtain rfl := Option.some.inj hstep
        exact h.check horderly hcond hi hapart hpass
      · obtain rfl := Option.some.inj hstep
        exact h.setPhase (by simp) (by simp)
    · cases hstep
  | stage i =>
    simp only [Dir.step] at hstep
    split at hstep
    · next hi =>
      split_ifs at hstep with hclash
      · obtain rfl := Option.some.inj hstep
        exact h.setPhase (by simp) (by simp)
      · obtain rfl := Option.some.inj hstep
        exact h.setPhase (by simp) fun _ => .inl hi
    · cases hstep
  | rename i =>
    simp only [Dir.step] at hstep
    split at hstep
    · next t hi =>
      obtain rfl := Option.some.inj hstep
      exact h.rename horderly hfresh hi
    · cases hstep
  | fail i leave =>
    simp only [Dir.step] at hstep
    split at hstep
    · obtain rfl := Option.some.inj hstep
      exact h.setPhase (by simp) (by simp)
    · obtain rfl := Option.some.inj hstep
      cases leave <;> exact h.setPhase (by simp) (by simp)
    · cases hstep

/-- On a key all of whose calls have one precondition, which none of the written
contents meets again, at most one call wins. -/
theorem atMostOne_of_apart {objects : String → Option Bytes}
    (hcond : ∀ i, (calls i).key = key → (calls i).cond = cond)
    (hfresh : ∀ i, (calls i).key = key → cond.passes (some (calls i).bytes) = false)
    (hrun : RunWhere (Dir.step calls pid) (Apart calls) (start objects) σ) : σ.AtMostOne calls key := by
  have h : Orderly calls σ ∧ Exclusive calls σ key cond := by
    refine hrun.invariant (I := fun σ => Orderly calls σ ∧ Exclusive calls σ key cond) ⟨?_, ?_⟩
      fun _ _ _ h hapart hstep => ⟨h.1.step hstep, h.2.step h.1 hcond hfresh hapart hstep⟩
    · exact ⟨by simp [start, inWindow], by simp [start], by simp [start]⟩
    · exact ⟨by simp [start, inWindow], by simp [start, inWindow], by simp [start, isOk], by simp [start, isOk]⟩
  exact ⟨h.2.one, h.2.stored⟩

end Dir

/-- **Conditional puts across values.** When no call checks a key while a call of
another value is between its check and its rename there: of the `put_if_absent`
calls on a key at most one returns `Ok`, and the object is its bytes; and of the
`put_if_match` calls on a key with one etag, none of which writes bytes of that
same etag, at most one returns `Ok`, and the object is its bytes. -/
theorem one_put_wins (calls : Nat → Call) (pid : Nat → Nat) (objects : String → Option Bytes) (σ : Dir)
    (hrun : RunWhere (Dir.step calls pid) (Dir.Apart calls) (Dir.start objects) σ) (key : String) :
    ((∀ i, (calls i).key = key → (calls i).cond = .absent) → σ.AtMostOne calls key) ∧
      ∀ etag, (∀ i, (calls i).key = key → (calls i).cond = .matching etag ∧ etagOf (calls i).bytes ≠ etag) →
        σ.AtMostOne calls key := by
  refine ⟨fun habsent => Dir.atMostOne_of_apart habsent (fun _ _ => rfl) hrun, fun etag hmatch => ?_⟩
  refine Dir.atMostOne_of_apart (fun i hi => (hmatch i hi).1) (fun i hi => ?_) hrun
  simpa [Cond.passes] using (hmatch i hi).2

end

/-- Two `put_if_absent` calls on the key `head`, each through a value of its own
in a process of its own. -/
def rivals : Nat → Call
  | 0 => ⟨0, .absent, "head", [1]⟩
  | i => ⟨i, .absent, "head", [2]⟩

/-- The second call checks after the first has renamed, and loses. -/
theorem one_put_wins_rivals :
    ∃ σ, RunWhere (Dir.step rivals id) (Dir.Apart rivals) (Dir.start fun _ => none) σ ∧ σ.isOk 0 ∧
      σ.objects "head" = some [1] ∧ σ.phase 1 = .done (.error (.precondition "head")) := by
  have hquiet : ∀ (σ : Dir) (i : Nat), (∀ j, σ.phase j = .waiting ∨ σ.phase j = .locked ∨
      ∃ r, σ.phase j = .done r) → σ.Apart rivals (.check i) := by
    rintro σ i h j - - (hj | ⟨t, hj⟩)
    · rcases h j with h | h | ⟨r, h⟩ <;> simp [h] at hj
    · rcases h j with h | h | ⟨r, h⟩ <;> simp [h] at hj
  obtain ⟨σ, hplays, hok, hlost⟩ : ∃ σ, Plays (Dir.step rivals id) (Dir.Apart rivals) (Dir.start fun _ => none)
      [.lock 0, .check 0, .stage 0, .rename 0, .lock 1, .check 1] σ ∧ σ.isOk 0 ∧
        σ.phase 1 = .done (.error (.precondition "head")) := by
    refine ⟨_, ⟨trivial, _, rfl, hquiet _ _ ?_, _, rfl, trivial, _, rfl, trivial, _, rfl, trivial, _, rfl,
      hquiet _ _ ?_, _, rfl, rfl⟩, ⟨_, rfl⟩, rfl⟩
    · intro j
      match j with
      | 0 => exact .inr (.inl rfl)
      | j + 1 => exact .inl rfl
    · intro j
      match j with
      | 0 => exact .inr (.inr ⟨_, rfl⟩)
      | 1 => exact .inr (.inl rfl)
      | j + 2 => exact .inl rfl
  have hrun : RunWhere (Dir.step rivals id) (Dir.Apart rivals) (Dir.start fun _ => none) σ := RunWhere.nil.plays _ hplays
  have hone := (one_put_wins rivals id (fun _ => none) σ hrun "head").1 (by intro i _; cases i <;> rfl)
  exact ⟨σ, hrun, hok, hone.2 0 rfl hok, hlost⟩

/-- Both calls check before either renames: both return `Ok`, and the first one's
bytes are gone. -/
theorem both_puts_win : ∃ σ, Transition.Reach (Dir.step rivals id) (Dir.start fun _ => none) σ ∧
    σ.isOk 0 ∧ σ.isOk 1 ∧ σ.objects "head" = some [2] ∧ ¬ σ.AtMostOne rivals "head" := by
  refine ⟨_, RunWhere.nil.plays
      [.lock 0, .lock 1, .check 0, .check 1, .stage 0, .stage 1, .rename 0, .rename 1]
      ⟨trivial, _, rfl, trivial, _, rfl, trivial, _, rfl, trivial, _, rfl, trivial, _, rfl, trivial, _, rfl,
        trivial, _, rfl, trivial, _, rfl, rfl⟩, ⟨_, rfl⟩, ⟨_, rfl⟩, rfl, ?_⟩
  rintro ⟨hone, -⟩
  exact absurd (hone 0 1 rfl rfl ⟨_, rfl⟩ ⟨_, rfl⟩) (by decide)

end Twill.Storage.FsStore
