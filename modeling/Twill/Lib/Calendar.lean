/-
The proleptic Gregorian calendar: which days a month has, the date that
follows a date, and the number of days from a date to another. Numbering the
days puts the dates in the order of the integers without gaps
(`number_next`, `number_lt_number`), so a date is determined by its number and any
conversion that gets the number right is the calendar's
(`number_injective`). `IsFloor` is what truncating to a unit does: the last of
the unit's starts that has passed.
-/
import Mathlib.Order.Bounds.Basic
import Mathlib.Tactic.IntervalCases

namespace Calendar

/-! ## Dates -/

/-- Every fourth year is a leap year, less the centuries, less every fourth of these. -/
def IsLeap (y : Int) : Prop := y % 4 = 0 ∧ (y % 100 ≠ 0 ∨ y % 400 = 0)

instance (y : Int) : Decidable (IsLeap y) := inferInstanceAs (Decidable (_ ∧ _))

def daysInMonth (y m : Int) : Int :=
  if m = 2 then if IsLeap y then 29 else 28
  else if m = 4 ∨ m = 6 ∨ m = 9 ∨ m = 11 then 30 else 31

/-- A day of a month of a year. -/
structure Date where
  year : Int
  month : Int
  day : Int
  month_pos : 1 ≤ month
  month_le : month ≤ 12
  day_pos : 1 ≤ day
  day_le : day ≤ daysInMonth year month
  deriving DecidableEq

@[ext] theorem Date.ext' {d e : Date} (hy : d.year = e.year) (hm : d.month = e.month)
    (hd : d.day = e.day) : d = e := by
  cases d
  cases e
  cases hy
  cases hm
  cases hd
  rfl

theorem daysInMonth_bounds (y m : Int) : 28 ≤ daysInMonth y m ∧ daysInMonth y m ≤ 31 := by
  unfold daysInMonth
  split
  · split <;> omega
  · split <;> omega

/-- The first day of a month. -/
def Date.first (y m : Int) (h₁ : 1 ≤ m) (h₂ : m ≤ 12) : Date :=
  ⟨y, m, 1, h₁, h₂, by omega, by have := (daysInMonth_bounds y m).1; omega⟩

/-- The day after. -/
def Date.next (d : Date) : Date :=
  if h : d.day < daysInMonth d.year d.month then
    ⟨d.year, d.month, d.day + 1, d.month_pos, d.month_le, by have := d.day_pos; omega, by omega⟩
  else if h : d.month < 12 then
    Date.first d.year (d.month + 1) (by have := d.month_pos; omega) (by omega)
  else Date.first (d.year + 1) 1 (by omega) (by omega)

/-! ## Numbering the days -/

/-- Days from the start of year 1 to the start of year `y`. -/
def yearStart (y : Int) : Int :=
  365 * (y - 1) + (y - 1) / 4 - (y - 1) / 100 + (y - 1) / 400

/-- Days of the year before the month `m`. -/
def monthStart (y m : Int) : Int :=
  if m ≤ 2 then 31 * (m - 1)
  else (153 * (m - 3) + 2) / 5 + (if IsLeap y then 60 else 59)

/-- Days from the first day of year 1. -/
def number (y m d : Int) : Int := yearStart y + monthStart y m + (d - 1)

def Date.number (d : Date) : Int := Calendar.number d.year d.month d.day

theorem yearStart_succ (y : Int) : yearStart (y + 1) = yearStart y + (if IsLeap y then 366 else 365) := by
  unfold yearStart
  by_cases h : IsLeap y
  · rw [if_pos h]
    obtain ⟨h₁, h₂⟩ := h
    omega
  · rw [if_neg h]
    unfold IsLeap at h
    omega

theorem monthStart_succ (y : Int) {m : Int} (h₁ : 1 ≤ m) (h₂ : m < 12) :
    monthStart y (m + 1) = monthStart y m + daysInMonth y m := by
  have h : m = 1 ∨ m = 2 ∨ m = 3 ∨ m = 4 ∨ m = 5 ∨ m = 6 ∨ m = 7 ∨ m = 8 ∨ m = 9 ∨ m = 10 ∨ m = 11 := by
    omega
  unfold monthStart daysInMonth
  by_cases hl : IsLeap y
  · simp only [hl, if_true]
    rcases h with rfl | rfl | rfl | rfl | rfl | rfl | rfl | rfl | rfl | rfl | rfl <;> rfl
  · simp only [hl, if_false]
    rcases h with rfl | rfl | rfl | rfl | rfl | rfl | rfl | rfl | rfl | rfl | rfl <;> rfl

theorem monthStart_one (y : Int) : monthStart y 1 = 0 := by simp [monthStart]

theorem monthStart_december (y : Int) :
    monthStart y 12 + daysInMonth y 12 = if IsLeap y then 366 else 365 := by
  unfold monthStart daysInMonth
  by_cases hl : IsLeap y <;> simp [hl]

/-- The next day has the next number. -/
theorem Date.number_next (d : Date) : d.next.number = d.number + 1 := by
  have hm := d.month_pos
  have hd := d.day_le
  unfold Date.next
  split
  · simp only [Date.number, Calendar.number]
    omega
  · rename_i hlast
    have hlast : d.day = daysInMonth d.year d.month := by omega
    split
    · rename_i hlt
      simp only [Date.number, Calendar.number, Date.first]
      rw [monthStart_succ _ hm hlt]
      omega
    · rename_i hlt
      have h12 : d.month = 12 := by have := d.month_le; omega
      have hdec := monthStart_december d.year
      simp only [Date.number, Calendar.number, Date.first]
      rw [yearStart_succ, monthStart_one]
      rw [h12] at hlast ⊢
      omega

/-! ## The order of the dates -/

theorem yearStart_mono {y y' : Int} (h : y ≤ y') : yearStart y ≤ yearStart y' := by
  unfold yearStart
  omega

theorem monthStart_mono (y : Int) {m m' : Int} (h₁ : 1 ≤ m) (h : m ≤ m') (h₂ : m' ≤ 12) :
    monthStart y m ≤ monthStart y m' := by
  have hfeb : (59 : Int) ≤ if IsLeap y then 60 else 59 := by split <;> omega
  unfold monthStart
  split <;> split <;> omega

/-- Dates by year, then month, then day. -/
def Date.Before (d e : Date) : Prop :=
  d.year < e.year ∨ d.year = e.year ∧ (d.month < e.month ∨ d.month = e.month ∧ d.day < e.day)

theorem Date.before_trichotomy (d e : Date) : d.Before e ∨ d = e ∨ e.Before d := by
  unfold Date.Before
  by_cases hy : d.year = e.year
  · by_cases hm : d.month = e.month
    · by_cases hd : d.day = e.day
      · exact .inr (.inl (Date.ext' hy hm hd))
      · omega
    · omega
  · omega

theorem Date.number_year (d : Date) :
    yearStart d.year ≤ d.number ∧ d.number < yearStart (d.year + 1) := by
  have hstart := monthStart_mono d.year (by omega) d.month_pos d.month_le
  rw [monthStart_one] at hstart
  have hday := d.day_pos
  have hle := d.day_le
  refine ⟨by simp only [Date.number, Calendar.number]; omega, ?_⟩
  rw [yearStart_succ, ← monthStart_december]
  simp only [Date.number, Calendar.number]
  by_cases h : d.month = 12
  · rw [h] at hle ⊢
    omega
  · have hlt : d.month < 12 := by have := d.month_le; omega
    have hsucc := monthStart_succ d.year d.month_pos hlt
    have hmono := monthStart_mono d.year (by have := d.month_pos; omega) (Int.le_of_lt_add_one (by omega : d.month + 1 < 12 + 1)) (by omega)
    have := (daysInMonth_bounds d.year 12).1
    omega

/-- An earlier date has a smaller number. -/
theorem Date.number_lt_number {d e : Date} (h : d.Before e) : d.number < e.number := by
  rcases h with h | ⟨hy, h | ⟨hm, h⟩⟩
  · have h₁ := d.number_year.2
    have h₂ := e.number_year.1
    have := yearStart_mono (by omega : d.year + 1 ≤ e.year)
    omega
  · have hlt : d.month < 12 := by have := e.month_le; omega
    have hsucc := monthStart_succ d.year d.month_pos hlt
    have hmono : monthStart d.year (d.month + 1) ≤ monthStart d.year e.month :=
      monthStart_mono d.year (by have := d.month_pos; omega) (by omega) e.month_le
    have h₁ := d.day_le
    have h₂ := e.day_pos
    simp only [Date.number, Calendar.number, ← hy]
    omega
  · simp only [Date.number, Calendar.number, ← hy, ← hm]
    omega

/-- **A date is its number.** -/
theorem Date.number_injective {d e : Date} (h : d.number = e.number) : d = e := by
  rcases d.before_trichotomy e with hlt | heq | hlt
  · have := Date.number_lt_number hlt
    omega
  · exact heq
  · have := Date.number_lt_number hlt
    omega

theorem Date.number_le_number {d e : Date} : d.number ≤ e.number ↔ ¬ e.Before d := by
  constructor
  · intro h hlt
    have := Date.number_lt_number hlt
    omega
  · intro h
    rcases d.before_trichotomy e with hlt | rfl | hlt
    · have := Date.number_lt_number hlt
      omega
    · exact Int.le_refl _
    · exact absurd hlt h

/-! ## The last start that has passed -/

section Floor

variable {α : Type*} [PartialOrder α] {starts : Set α} {f : α → α}

/-- `f` takes every point to the last of `starts` that is not after it. -/
def IsFloor (starts : Set α) (f : α → α) : Prop := ∀ e, IsGreatest {s | s ∈ starts ∧ s ≤ e} (f e)

theorem IsFloor.le (h : IsFloor starts f) (e : α) : f e ≤ e := (h e).1.2

theorem IsFloor.mem (h : IsFloor starts f) (e : α) : f e ∈ starts := (h e).1.1

theorem IsFloor.monotone (h : IsFloor starts f) : Monotone f := fun e e' hle =>
  (h e').2 ⟨h.mem e, (h.le e).trans hle⟩

theorem IsFloor.idempotent (h : IsFloor starts f) (e : α) : f (f e) = f e :=
  le_antisymm (h.le (f e)) ((h (f e)).2 ⟨h.mem e, le_refl _⟩)

end Floor

end Calendar
