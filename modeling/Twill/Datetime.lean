/-
The date and time helpers (`crates/engine/src/datetime.rs`) and what they
compute on the Gregorian calendar. Integers are unbounded, so that an
overflow of an `i64` is no part of it; a division whose operand may be
negative is the source's truncating one (`tdiv`).

`civil_from_days` is the calendar's own numbering read backwards
(`civilFromDays_number`), a formatted timestamp reads as itself
(`parseEpochSecs_formatTimestamp`), and `date_trunc` is the last start of
its unit that has passed (`dateTrunc_isFloor`).
-/
import Twill.Numerals
import Twill.Lib.Calendar
import Twill.Lib.Text

namespace Twill.Datetime

open Calendar

/-! ## The source -/

/-- Days since 1970-01-01. -/
def daysFromCivil (y m d : Int) : Int :=
  let y := if m ≤ 2 then y - 1 else y
  let era := (if 0 ≤ y then y else y - 399).tdiv 400
  let yoe := y - era * 400
  let mp := if 2 < m then m - 3 else m + 9
  let doy := (153 * mp + 2) / 5 + d - 1
  let doe := yoe * 365 + yoe / 4 - yoe / 100 + doy
  era * 146097 + doe - 719468

/-- Year, month and day of a day count. -/
def civilFromDays (z : Int) : Int × Int × Int :=
  let z := z + 719468
  let era := (if 0 ≤ z then z else z - 146096).tdiv 146097
  let doe := z - era * 146097
  let yoe := (doe - doe / 1460 + doe / 36524 - doe / 146096) / 365
  let y := yoe + era * 400
  let doy := doe - (365 * yoe + yoe / 4 - yoe / 100)
  let mp := (5 * doy + 2) / 153
  let d := doy - (153 * mp + 2) / 5 + 1
  let m := if mp < 10 then mp + 3 else mp - 9
  (if m ≤ 2 then y + 1 else y, m, d)

/-- Broken-down UTC time. -/
structure Parts where
  year : Int
  month : Int
  day : Int
  hour : Int
  minute : Int
  second : Int
  deriving DecidableEq, Repr

def parts (epoch : Int) : Parts :=
  let days := epoch / 86400
  let rem := epoch % 86400
  let (y, m, d) := civilFromDays days
  ⟨y, m, d, rem / 3600, rem % 3600 / 60, rem % 60⟩

def formatTimestamp (epoch : Int) : String :=
  let p := parts epoch
  s!"{padded 4 p.year}-{padded 2 p.month}-{padded 2 p.day} {padded 2 p.hour}:{padded 2 p.minute}:{padded 2 p.second}"

/-- `str::split_once` at the first character of a kind. -/
def splitOnce (sep : Char → Bool) (s : List Char) : List Char × Option (List Char) :=
  match s.dropWhile fun c => !sep c with
  | [] => (s, none)
  | _ :: rest => (s.takeWhile fun c => !sep c, some rest)

/-- The first piece of `str::split`. -/
def firstPiece (sep : Char → Bool) (s : List Char) : List Char := s.takeWhile fun c => !sep c

def parseField (s : List Char) : Option Int := (parseI64 (String.ofList s)).map Int64.toInt

/-- Seconds since midnight; time zones and fractions are dropped. -/
def parseTime (t : List Char) : Option Int := do
  let t := firstPiece (fun c => c == '+' || c == 'Z') (Text.trimEnd (· == 'Z') t)
  -- The date has its '-' already: here it starts an offset.
  let core := firstPiece (· == '.') (firstPiece (· == '-') t)
  let fields := core.splitOn ':'
  let hh ← parseField (trimText (String.ofList (fields.headD []))).toList
  let mm ← parseField (fields.getD 1 ['0'])
  let ss ← parseField (fields.getD 2 ['0'])
  some (hh * 3600 + mm * 60 + ss)

def parseEpochSecs (s : String) : Option Int :=
  let (date, time) := splitOnce (fun c => c == 'T' || c == ' ') (trimText s).toList
  match date.splitOn '-' with
  | y :: mo :: d :: _ => do
    let y ← parseField y
    let mo ← parseField mo
    let d ← parseField d
    if ¬ (1 ≤ mo ∧ mo ≤ 12) ∨ ¬ (1 ≤ d ∧ d ≤ 31) then none
    else
      let secs := daysFromCivil y mo d * 86400
      match time with
      | some t => (parseTime t).map fun sec => secs + sec
      | none => some secs
  | _ => none

/-- Sunday is 0; 1970-01-01 was a Thursday. -/
def dayOfWeek (epoch : Int) : Int := (epoch / 86400 % 7 + 4) % 7

/-- The start of the unit `epoch` lies in. -/
def dateTrunc (unit : String) (epoch : Int) : Option Int :=
  let p := parts epoch
  let secs (y m d hh mm ss : Int) : Int := daysFromCivil y m d * 86400 + hh * 3600 + mm * 60 + ss
  match toAsciiLowercase unit with
  | "year" => some (secs p.year 1 1 0 0 0)
  | "quarter" => some (secs p.year ((p.month - 1) / 3 * 3 + 1) 1 0 0 0)
  | "month" => some (secs p.year p.month 1 0 0 0)
  | "week" =>
    let days := epoch / 86400
    let monday := days - (days % 7 + 3) % 7
    some (monday * 86400)
  | "day" => some (secs p.year p.month p.day 0 0 0)
  | "hour" => some (secs p.year p.month p.day p.hour 0 0)
  | "minute" => some (secs p.year p.month p.day p.hour p.minute 0)
  | "second" => some epoch
  | _ => none

/-! ## Numbering -/

/-- The number of 1970-01-01 in the calendar. -/
theorem number_epoch : Calendar.number 1970 1 1 = 719162 := by decide

/-- The source's floor division: truncating, of an operand moved down when it is negative. -/
theorem tdiv_shifted {n k : Int} (hn : 0 < n) (hk : k = n - 1) (y : Int) :
    (if 0 ≤ y then y else y - k).tdiv n = y / n := by
  subst hk
  split
  · exact Int.tdiv_eq_ediv_of_nonneg ‹_›
  · have hneg : y - (n - 1) = -(n - 1 - y) := by omega
    rw [hneg, Int.neg_tdiv, Int.tdiv_eq_ediv_of_nonneg (by omega)]
    have hle := Int.mul_ediv_self_le (x := n - 1 - y) (k := n) (by omega)
    have hlt := Int.lt_mul_ediv_self_add (x := n - 1 - y) (k := n) hn
    have hmul : n * -((n - 1 - y) / n) = -(n * ((n - 1 - y) / n)) := Int.mul_neg _ _
    exact ((Int.ediv_emod_unique (r := y - n * -((n - 1 - y) / n)) hn).2 (by omega)).1.symm

/-- `days_from_civil` counts the days from 1970-01-01 to a date. -/
theorem daysFromCivil_eq {y m d : Int} (h₁ : 1 ≤ m) (h₂ : m ≤ 12) :
    daysFromCivil y m d = Calendar.number y m d - 719162 := by
  unfold daysFromCivil Calendar.number yearStart monthStart
  dsimp only
  rw [tdiv_shifted (n := 400) (by omega) (by omega)]
  by_cases h : m ≤ 2
  · simp only [h, if_true, if_neg (Int.not_lt.2 h)]
    omega
  · simp only [h, if_false, if_pos (Int.not_le.1 h)]
    by_cases hl : IsLeap y
    · rw [if_pos hl]
      obtain ⟨hl₁, hl₂⟩ := hl
      omega
    · rw [if_neg hl]
      unfold IsLeap at hl
      omega

/-- A day of a 400-year era by century, leap cycle, year and day: the fourth year of a cycle has
one day more, which the last cycle of a century goes without unless it is the era's. -/
theorem dayOfEra_cut {doe : Int} (h₀ : 0 ≤ doe) (h₁ : doe < 146097) :
    ∃ c q t u : Int, doe = 36524 * c + 1461 * q + 365 * t + u ∧ 0 ≤ c ∧ c ≤ 3 ∧ 0 ≤ q ∧ q ≤ 24 ∧
      0 ≤ t ∧ t ≤ 3 ∧ 0 ≤ u ∧ u ≤ 365 ∧ (u = 365 → t = 3 ∧ (q = 24 → c = 3)) := by
  obtain ⟨c, hc⟩ : ∃ c, c = min (doe / 36524) 3 := ⟨_, rfl⟩
  obtain ⟨r, hr⟩ : ∃ r, r = doe - 36524 * c := ⟨_, rfl⟩
  obtain ⟨q, hq⟩ : ∃ q, q = r / 1461 := ⟨_, rfl⟩
  obtain ⟨s, hs⟩ : ∃ s, s = r - 1461 * q := ⟨_, rfl⟩
  obtain ⟨t, ht⟩ : ∃ t, t = min (s / 365) 3 := ⟨_, rfl⟩
  have hr₀ : 0 ≤ r ∧ r ≤ 36524 ∧ (r = 36524 → c = 3) := by omega
  have hs₀ : 0 ≤ s ∧ s ≤ 1460 := by omega
  exact ⟨c, q, t, s - 365 * t, by omega, by omega, by omega, by omega, by omega, by omega, by omega, by omega,
    by omega, by omega⟩

/-- The year of the era, from the day of the era: the divisions take off the leap days. -/
theorem yearOfEra_eq {c q t u : Int} (hc₀ : 0 ≤ c) (hc₁ : c ≤ 3) (hq₀ : 0 ≤ q) (hq₁ : q ≤ 24) (ht₀ : 0 ≤ t)
    (ht₁ : t ≤ 3) (hu₀ : 0 ≤ u) (hu₁ : u ≤ 365) (hlast : u = 365 → t = 3 ∧ (q = 24 → c = 3)) {doe : Int}
    (hdoe : doe = 36524 * c + 1461 * q + 365 * t + u) :
    (doe - doe / 1460 + doe / 36524 - doe / 146096) / 365 = 100 * c + 4 * q + t := by
  have hcentury : doe / 36524 - doe / 146096 = c := by
    obtain ⟨r, hr⟩ : ∃ r, r = 1461 * q + 365 * t + u := ⟨_, rfl⟩
    have hr₁ : 0 ≤ r ∧ r ≤ 36524 ∧ (r = 36524 → c = 3) := by omega
    have hdoe : doe = 36524 * c + r := by omega
    clear hlast hr
    omega
  obtain ⟨e, he, he₀⟩ : ∃ e, doe / 1460 = 25 * c + q + e ∧
      (e = 1 ∧ 1460 ≤ 24 * c + q + 365 * t + u ∨ e = 0 ∧ 24 * c + q + 365 * t + u < 1460) := by
    refine ⟨doe / 1460 - (25 * c + q), by omega, ?_⟩
    clear hlast hcentury
    by_cases h : 1460 ≤ 24 * c + q + 365 * t + u
    · exact .inl ⟨by omega, h⟩
    · exact .inr ⟨by omega, by omega⟩
  have hsum : doe - doe / 1460 + doe / 36524 - doe / 146096 = 365 * (100 * c + 4 * q + t) + (u - e) := by omega
  have hrest : 0 ≤ u - e ∧ u - e < 365 := by
    clear hsum he hcentury
    omega
  rw [hsum]
  clear hsum he he₀ hcentury hlast
  omega

/-- Year and day of the era's day, and the only day a year that starts in March can be longer by. -/
theorem yearOfEra_spec (doe : Int) (h₀ : 0 ≤ doe) (h₁ : doe < 146097) :
    ∃ yoe doy, (doe - doe / 1460 + doe / 36524 - doe / 146096) / 365 = yoe ∧
      doe = 365 * yoe + yoe / 4 - yoe / 100 + doy ∧ 0 ≤ yoe ∧ yoe < 400 ∧ 0 ≤ doy ∧ doy ≤ 365 ∧
      (doy = 365 → IsLeap (yoe + 1)) := by
  obtain ⟨c, q, t, u, hcut, hc₀, hc₁, hq₀, hq₁, ht₀, ht₁, hu₀, hu₁, hlast⟩ := dayOfEra_cut h₀ h₁
  refine ⟨100 * c + 4 * q + t, u, yearOfEra_eq hc₀ hc₁ hq₀ hq₁ ht₀ ht₁ hu₀ hu₁ hlast hcut, ?_, by omega, by omega,
    hu₀, hu₁, fun hu => ?_⟩
  · have hleap : (100 * c + 4 * q + t) / 4 = 25 * c + q := by omega
    have hcentury : (100 * c + 4 * q + t) / 100 = c := by omega
    rw [hleap, hcentury]
    omega
  · obtain ⟨rfl, hq⟩ := hlast hu
    refine ⟨by omega, ?_⟩
    by_cases h : q = 24
    · obtain rfl := hq h
      subst h
      exact .inr (by decide)
    · exact .inl (by omega)

/-- A day of the year that starts in March, by month: months of 31 and 30 days, five by five. -/
theorem monthOfYear_spec {doy : Int} (h₀ : 0 ≤ doy) (h₁ : doy ≤ 365) {mp : Int} (hmp : mp = (5 * doy + 2) / 153) :
    0 ≤ mp ∧ mp ≤ 11 ∧ 0 ≤ doy - (153 * mp + 2) / 5 ∧
      doy - (153 * mp + 2) / 5 < (if mp = 11 then 29 else if mp = 1 ∨ mp = 3 ∨ mp = 6 ∨ mp = 8 then 30 else 31) ∧
      (mp = 11 → doy - (153 * mp + 2) / 5 = 28 → doy = 365) := by
  have hcases : mp = 0 ∨ mp = 1 ∨ mp = 2 ∨ mp = 3 ∨ mp = 4 ∨ mp = 5 ∨ mp = 6 ∨ mp = 7 ∨ mp = 8 ∨ mp = 9 ∨
      mp = 10 ∨ mp = 11 := by
    omega
  rcases hcases with rfl | rfl | rfl | rfl | rfl | rfl | rfl | rfl | rfl | rfl | rfl | rfl <;> norm_num <;> omega

theorem isLeap_add_era (y era : Int) : IsLeap (y + era * 400) ↔ IsLeap y := by
  unfold IsLeap
  omega

/-- The length of a month, by the months from March on. -/
theorem daysInMonth_march {y mp : Int} (h₀ : 0 ≤ mp) (h₁ : mp < 10) :
    daysInMonth y (mp + 3) = if mp = 1 ∨ mp = 3 ∨ mp = 6 ∨ mp = 8 then 30 else 31 := by
  unfold daysInMonth
  rw [if_neg (by omega)]
  congr 1
  rw [eq_iff_iff]
  omega

/-- `civil_from_days` gives a date of the calendar, and `days_from_civil` leads back. -/
theorem civilFromDays_spec (z : Int) :
    ∃ y m d, civilFromDays z = (y, m, d) ∧ 1 ≤ m ∧ m ≤ 12 ∧ 1 ≤ d ∧ d ≤ daysInMonth y m ∧ daysFromCivil y m d = z := by
  obtain ⟨era, hera⟩ : ∃ era, era = (z + 719468) / 146097 := ⟨_, rfl⟩
  obtain ⟨doe, hdoe⟩ : ∃ doe, doe = z + 719468 - era * 146097 := ⟨_, rfl⟩
  obtain ⟨yoe, doy, hyoe, hcut, hyoe₀, hyoe₁, hdoy₀, hdoy₁, hleap⟩ :=
    yearOfEra_spec doe (by omega) (by omega)
  obtain ⟨mp, hmp⟩ : ∃ mp, mp = (5 * doy + 2) / 153 := ⟨_, rfl⟩
  obtain ⟨hmp₀, hmp₁, hday₀, hday₁, hfeb⟩ := monthOfYear_spec hdoy₀ hdoy₁ hmp
  have hday : doe - (365 * yoe + yoe / 4 - yoe / 100) = doy := by
    rw [hcut]
    ring
  have hback : era * 146097 + (yoe * 365 + yoe / 4 - yoe / 100 + doy) - 719468 = z := by
    clear hyoe hmp hday hera hfeb hday₁ hday₀
    omega
  have hyear : (yoe + era * 400) / 400 = era := by
    clear hyoe hmp hday hera hfeb hday₁ hday₀ hback hcut
    omega
  have hval : civilFromDays z =
      (if (if mp < 10 then mp + 3 else mp - 9) ≤ 2 then yoe + era * 400 + 1 else yoe + era * 400,
        if mp < 10 then mp + 3 else mp - 9, doy - (153 * mp + 2) / 5 + 1) := by
    unfold civilFromDays
    dsimp only
    rw [tdiv_shifted (n := 146097) (by omega) (by omega), ← hera, ← hdoe, hyoe, hday, ← hmp]
  have hyoe' : yoe + era * 400 - era * 400 = yoe := by ring
  rw [hval]
  clear hval hday hyoe hmp hera hdoe hcut
  by_cases h : mp < 10
  · rw [if_pos h, if_neg (by omega)]
    refine ⟨_, _, _, rfl, by omega, by omega, by omega, ?_, ?_⟩
    · rw [daysInMonth_march hmp₀ h]
      rw [if_neg (by omega)] at hday₁
      omega
    · unfold daysFromCivil
      dsimp only
      rw [if_neg (show ¬ mp + 3 ≤ 2 by omega), if_pos (show 2 < mp + 3 by omega),
        tdiv_shifted (n := 400) (by omega) (by omega), hyear, hyoe', Int.add_sub_cancel]
      omega
  · rw [if_neg h, if_pos (by omega)]
    refine ⟨_, _, _, rfl, by omega, by omega, by omega, ?_, ?_⟩
    · by_cases h11 : mp = 11
      · subst h11
        unfold daysInMonth
        rw [if_pos (by omega)]
        by_cases hl : IsLeap (yoe + era * 400 + 1)
        · rw [if_pos hl]
          omega
        · rw [if_neg hl]
          have hne : doy ≠ 365 := fun h => hl (by
            rw [show yoe + era * 400 + 1 = yoe + 1 + era * 400 by ring]
            exact (isLeap_add_era _ _).2 (hleap h))
          omega
      · unfold daysInMonth
        rw [if_neg (by omega), if_neg (by omega)]
        omega
    · unfold daysFromCivil
      dsimp only
      rw [if_pos (show mp - 9 ≤ 2 by omega), if_neg (show ¬ 2 < mp - 9 by omega), Int.add_sub_cancel,
        tdiv_shifted (n := 400) (by omega) (by omega), hyear, hyoe', Int.sub_add_cancel]
      omega

/-- The date of a day count. -/
def civilDate (z : Int) : Date where
  year := (civilFromDays z).1
  month := (civilFromDays z).2.1
  day := (civilFromDays z).2.2
  month_pos := by
    obtain ⟨y, m, d, h, hm, -⟩ := civilFromDays_spec z
    rw [h]
    exact hm
  month_le := by
    obtain ⟨y, m, d, h, -, hm, -⟩ := civilFromDays_spec z
    rw [h]
    exact hm
  day_pos := by
    obtain ⟨y, m, d, h, -, -, hd, -⟩ := civilFromDays_spec z
    rw [h]
    exact hd
  day_le := by
    obtain ⟨y, m, d, h, -, -, -, hd, -⟩ := civilFromDays_spec z
    rw [h]
    exact hd

theorem daysFromCivil_civilDate (z : Int) :
    daysFromCivil (civilDate z).year (civilDate z).month (civilDate z).day = z := by
  obtain ⟨y, m, d, h, -, -, -, -, hback⟩ := civilFromDays_spec z
  rw [← hback]
  simp only [civilDate, hback, h]

theorem daysFromCivil_date (d : Date) : daysFromCivil d.year d.month d.day = d.number - 719162 :=
  daysFromCivil_eq d.month_pos d.month_le

theorem number_civilDate (z : Int) : (civilDate z).number = z + 719162 := by
  have h := daysFromCivil_civilDate z
  rw [daysFromCivil_date] at h
  omega

/-- The day after has the date after. -/
theorem civilDate_succ (z : Int) : civilDate (z + 1) = (civilDate z).next := by
  apply Date.number_injective
  rw [Date.number_next, number_civilDate, number_civilDate]
  omega

/-! ## Broken-down time -/

theorem parts_date (e : Int) : (parts e).year = (civilDate (e / 86400)).year ∧
    (parts e).month = (civilDate (e / 86400)).month ∧ (parts e).day = (civilDate (e / 86400)).day := ⟨rfl, rfl, rfl⟩

theorem parts_time (e : Int) : 0 ≤ (parts e).hour ∧ (parts e).hour < 24 ∧ 0 ≤ (parts e).minute ∧ (parts e).minute < 60 ∧
    0 ≤ (parts e).second ∧ (parts e).second < 60 ∧
    (parts e).hour * 3600 + (parts e).minute * 60 + (parts e).second = e % 86400 := by
  have hhour : (parts e).hour = e % 86400 / 3600 := rfl
  have hminute : (parts e).minute = e % 86400 % 3600 / 60 := rfl
  have hsecond : (parts e).second = e % 86400 % 60 := rfl
  rw [hhour, hminute, hsecond]
  omega

/-- The parts of a time make up the time. -/
theorem parts_secs (e : Int) :
    daysFromCivil (parts e).year (parts e).month (parts e).day * 86400 + (parts e).hour * 3600 +
      (parts e).minute * 60 + (parts e).second = e := by
  obtain ⟨-, -, -, -, -, -, hsum⟩ := parts_time e
  obtain ⟨hy, hm, hd⟩ := parts_date e
  rw [hy, hm, hd, daysFromCivil_civilDate]
  omega

/-! ## Reading a timestamp back -/

theorem digit_ne {c x : Char} (hc : c.isDigit = true) (hx : x.isDigit = false) : (c == x) = false := by
  rw [beq_eq_false_iff_ne]
  rintro rfl
  rw [hc] at hx
  cases hx

theorem digit_not_whitespace {c : Char} (hc : c.isDigit = true) : isWhitespace c = false := by
  have hc : 48 ≤ c.toNat ∧ c.toNat ≤ 57 := Char.isDigit_iff_toNat.1 hc
  simp only [isWhitespace, Bool.or_eq_false_iff, Bool.and_eq_false_iff, decide_eq_false_iff_not, beq_eq_false_iff_ne]
  omega

/-- A text between two characters that are no whitespace is trimmed already. -/
theorem trimText_self {s : String} {c d : Char} (hhead : s.toList.head? = some c) (hlast : s.toList.getLast? = some d)
    (hc : isWhitespace c = false) (hd : isWhitespace d = false) : trimText s = s := by
  obtain ⟨cs, hcs⟩ := List.head?_eq_some_iff.1 hhead
  obtain ⟨ds, hds⟩ := List.getLast?_eq_some_iff.1 hlast
  unfold trimText
  have hfront : s.toList.dropWhile isWhitespace = s.toList := by
    rw [hcs, List.dropWhile_cons_of_neg (by simp [hc])]
  have hback : s.toList.reverse.dropWhile isWhitespace = s.toList.reverse := by
    rw [hds, List.reverse_append, List.reverse_singleton, List.singleton_append,
      List.dropWhile_cons_of_neg (by simp [hd])]
  rw [hfront, hback, List.reverse_reverse, String.ofList_toList]

section Pieces

variable {sep : Char → Bool} {a b : List Char} {c : Char}

theorem takeWhile_piece (ha : ∀ x ∈ a, sep x = false) (hc : sep c = true) :
    (a ++ c :: b).takeWhile (fun x => !sep x) = a := by
  rw [List.takeWhile_append_of_pos (by simpa using ha), List.takeWhile_cons_of_neg (by simp [hc]), List.append_nil]

theorem splitOnce_piece (ha : ∀ x ∈ a, sep x = false) (hc : sep c = true) :
    splitOnce sep (a ++ c :: b) = (a, some b) := by
  have hdrop : (a ++ c :: b).dropWhile (fun x => !sep x) = c :: b := by
    rw [List.dropWhile_append_of_pos (by simpa using ha), List.dropWhile_cons_of_neg (by simp [hc])]
  unfold splitOnce
  rw [hdrop, takeWhile_piece ha hc]

theorem firstPiece_self (ha : ∀ x ∈ a, sep x = false) : firstPiece sep a = a := by
  unfold firstPiece
  rw [List.takeWhile_eq_self_iff]
  simpa using ha

theorem splitOn_piece (ha : ∀ x ∈ a, (x == c) = false) : (a ++ c :: b).splitOn c = a :: b.splitOn c := by
  rw [List.splitOn_eq_splitOnP, List.splitOnP_append_cons_of_forall_mem ha c (by simp) b]
  rfl

theorem splitOn_self (ha : ∀ x ∈ a, (x == c) = false) : a.splitOn c = [a] := by
  rw [List.splitOn_eq_splitOnP, List.splitOnP_eq_singleton ha]

end Pieces

theorem parseField_padded (width : ℕ) {n : ℕ} (hn : n < 2 ^ 63) :
    parseField (padded width n).toList = some (n : Int) := by
  unfold parseField
  rw [String.ofList_toList, parseI64_padded width hn, Option.map_some, Int64.toInt_ofInt_of_le (by omega) (by omega)]

theorem trimEnd_self {p : Char → Bool} {a : List Char} (ha : ∀ x ∈ a, p x = false) : Text.trimEnd p a = a := by
  have hrev : ∀ x ∈ a.reverse, p x = false := by simpa using ha
  unfold Text.trimEnd
  cases h : a.reverse with
  | nil => rw [List.reverse_eq_nil_iff.1 h]; rfl
  | cons c cs =>
    rw [List.dropWhile_cons_of_neg (by simp [hrev c (h ▸ List.mem_cons_self)]), ← h, List.reverse_reverse]

theorem trimText_padded (width n : ℕ) : trimText (padded width n) = padded width n := by
  have hne := padded_ne_nil width n
  have hhead := List.head?_eq_some_head hne
  have hlast := List.getLast?_eq_some_getLast hne
  exact trimText_self hhead hlast (digit_not_whitespace (padded_isDigit width n _ (List.head_mem hne)))
    (digit_not_whitespace (padded_isDigit width n _ (List.getLast_mem hne)))

/-- The time behind the date: no time zone and no fraction to drop. -/
theorem parseTime_fields {hh mm ss : ℕ} (hhh : hh < 2 ^ 63) (hmm : mm < 2 ^ 63) (hss : ss < 2 ^ 63) :
    parseTime ((padded 2 hh).toList ++ ':' :: ((padded 2 mm).toList ++ ':' :: (padded 2 ss).toList)) =
      some (hh * 3600 + mm * 60 + ss : Int) := by
  have digits : ∀ {n : ℕ} {x : Char}, x.isDigit = false → ∀ c ∈ (padded 2 n).toList, (c == x) = false :=
    fun hx c hc => digit_ne (padded_isDigit 2 _ c hc) hx
  obtain ⟨t, ht⟩ : ∃ t, t = (padded 2 hh).toList ++ ':' :: ((padded 2 mm).toList ++ ':' :: (padded 2 ss).toList) :=
    ⟨_, rfl⟩
  have hclean : ∀ x : Char, x.isDigit = false → (':' == x) = false → ∀ c ∈ t, (c == x) = false := by
    intro x hx hcolon c hc
    rw [ht] at hc
    simp only [List.mem_append, List.mem_cons] at hc
    rcases hc with h | rfl | h | rfl | h
    · exact digits hx c h
    · exact hcolon
    · exact digits hx c h
    · exact hcolon
    · exact digits hx c h
  have hzone : ∀ c ∈ t, (c == '+' || c == 'Z') = false := fun c hc => by
    rw [hclean '+' rfl rfl c hc, hclean 'Z' rfl rfl c hc]
    rfl
  rw [← ht]
  unfold parseTime
  dsimp only
  rw [trimEnd_self (hclean 'Z' rfl rfl), firstPiece_self hzone, firstPiece_self (hclean '-' rfl rfl),
    firstPiece_self (hclean '.' rfl rfl), ht, splitOn_piece (digits rfl), splitOn_piece (digits rfl),
    splitOn_self (digits rfl)]
  simp only [List.headD_cons, List.getD_cons_succ, List.getD_cons_zero, String.ofList_toList]
  rw [trimText_padded, parseField_padded 2 hhh, parseField_padded 2 hmm, parseField_padded 2 hss]
  rfl

/-- Six numerals between the separators of a timestamp read as the time they name. -/
theorem parseEpochSecs_fields (y m d hh mm ss : ℕ) (hy : y < 2 ^ 63) (hm : 1 ≤ m ∧ m ≤ 12) (hd : 1 ≤ d ∧ d ≤ 31)
    (hhh : hh < 2 ^ 63) (hmm : mm < 2 ^ 63) (hss : ss < 2 ^ 63) :
    parseEpochSecs s!"{padded 4 y}-{padded 2 m}-{padded 2 d} {padded 2 hh}:{padded 2 mm}:{padded 2 ss}" =
      some (daysFromCivil y m d * 86400 + (hh * 3600 + mm * 60 + ss)) := by
  have digits : ∀ {w n : ℕ} {x : Char}, x.isDigit = false → ∀ c ∈ (padded w n).toList, (c == x) = false :=
    fun hx c hc => digit_ne (padded_isDigit _ _ c hc) hx
  obtain ⟨text, htext⟩ : ∃ text, text =
      s!"{padded 4 y}-{padded 2 m}-{padded 2 d} {padded 2 hh}:{padded 2 mm}:{padded 2 ss}" := ⟨_, rfl⟩
  obtain ⟨date, hdate⟩ : ∃ date, date =
      (padded 4 y).toList ++ '-' :: ((padded 2 m).toList ++ '-' :: (padded 2 d).toList) := ⟨_, rfl⟩
  obtain ⟨time, htime⟩ : ∃ time, time =
      (padded 2 hh).toList ++ ':' :: ((padded 2 mm).toList ++ ':' :: (padded 2 ss).toList) := ⟨_, rfl⟩
  have hlist : text.toList = date ++ ' ' :: time := by
    rw [htext, hdate, htime]
    simp [toString]
  have htrim : trimText text = text := by
    have hne := padded_ne_nil 4 y
    have hne' := padded_ne_nil 2 ss
    have hhead : text.toList.head? = some ((padded 4 y).toList.head hne) := by
      rw [hlist, hdate, List.append_assoc, List.head?_append, List.head?_eq_some_head hne]
      rfl
    have hlast : text.toList.getLast? = some ((padded 2 ss).toList.getLast hne') := by
      rw [hlist, htime]
      simp [List.getLast?_append, List.getLast?_cons, List.getLast?_eq_some_getLast hne']
    exact trimText_self hhead hlast (digit_not_whitespace (padded_isDigit 4 y _ (List.head_mem hne)))
      (digit_not_whitespace (padded_isDigit 2 ss _ (List.getLast_mem hne')))
  have hsep : ∀ c ∈ date, (c == 'T' || c == ' ') = false := by
    intro c hc
    rw [hdate] at hc
    simp only [List.mem_append, List.mem_cons] at hc
    rw [Bool.or_eq_false_iff]
    rcases hc with h | rfl | h | rfl | h
    · exact ⟨digits rfl c h, digits rfl c h⟩
    · exact ⟨rfl, rfl⟩
    · exact ⟨digits rfl c h, digits rfl c h⟩
    · exact ⟨rfl, rfl⟩
    · exact ⟨digits rfl c h, digits rfl c h⟩
  rw [← htext]
  unfold parseEpochSecs
  rw [htrim, hlist, splitOnce_piece hsep rfl]
  dsimp only
  rw [hdate, splitOn_piece (digits rfl), splitOn_piece (digits rfl), splitOn_self (digits rfl)]
  dsimp only
  rw [parseField_padded 4 hy, parseField_padded 2 (by omega), parseField_padded 2 (by omega), htime,
    parseTime_fields hhh hmm hss]
  dsimp only [Option.bind_eq_bind, Option.bind_some]
  rw [if_neg (by omega)]
  rfl

/-- **A formatted timestamp reads as itself**, over the years of four digits. -/
theorem parseEpochSecs_formatTimestamp {e : Int} (h₀ : 0 ≤ (parts e).year) (h₁ : (parts e).year ≤ 9999) :
    parseEpochSecs (formatTimestamp e) = some e := by
  obtain ⟨hhour₀, hhour₁, hmin₀, hmin₁, hsec₀, hsec₁, -⟩ := parts_time e
  have hsecs := parts_secs e
  have hdate := parts_date e
  have hm₀ := (civilDate (e / 86400)).month_pos
  have hm₁ := (civilDate (e / 86400)).month_le
  have hd₀ := (civilDate (e / 86400)).day_pos
  have hd₁ := (civilDate (e / 86400)).day_le
  have hlen := (daysInMonth_bounds (civilDate (e / 86400)).year (civilDate (e / 86400)).month).2
  rw [← hdate.2.1] at hm₀ hm₁
  rw [← hdate.2.2] at hd₀ hd₁
  unfold formatTimestamp
  dsimp only
  obtain ⟨y, hy⟩ := Int.eq_ofNat_of_zero_le h₀
  obtain ⟨m, hm⟩ := Int.eq_ofNat_of_zero_le (by omega : 0 ≤ (parts e).month)
  obtain ⟨d, hd⟩ := Int.eq_ofNat_of_zero_le (by omega : 0 ≤ (parts e).day)
  obtain ⟨hh, hhh⟩ := Int.eq_ofNat_of_zero_le hhour₀
  obtain ⟨mm, hmm⟩ := Int.eq_ofNat_of_zero_le hmin₀
  obtain ⟨ss, hss⟩ := Int.eq_ofNat_of_zero_le hsec₀
  have hread := parseEpochSecs_fields y m d hh mm ss (by omega) (by omega)
    (by omega) (by omega) (by omega) (by omega)
  rw [hy, hm, hd, hhh, hmm, hss] at hsecs ⊢
  rw [hread, ← Int.add_assoc, ← Int.add_assoc, hsecs]

/-! ## Truncation -/

/-- The second a date starts with. -/
def dayStart (d : Date) : Int := (d.number - 719162) * 86400

/-- The seconds that start a unit, units by their lower-case names. -/
def unitStarts (unit : String) : Set Int :=
  match unit with
  | "year" => {s | ∃ d : Date, (d.month = 1 ∧ d.day = 1) ∧ s = dayStart d}
  | "quarter" => {s | ∃ d : Date, (d.month % 3 = 1 ∧ d.day = 1) ∧ s = dayStart d}
  | "month" => {s | ∃ d : Date, d.day = 1 ∧ s = dayStart d}
  | "week" => {s | s % 86400 = 0 ∧ dayOfWeek s = 1}
  | "day" => {s | s % 86400 = 0}
  | "hour" => {s | s % 3600 = 0}
  | "minute" => {s | s % 60 = 0}
  | "second" => Set.univ
  | _ => ∅

theorem dayStart_le (d : Date) (e : Int) : dayStart d ≤ e ↔ ¬ (civilDate (e / 86400)).Before d := by
  rw [← Date.number_le_number, number_civilDate]
  unfold dayStart
  omega

/-- Truncating the date truncates the second. -/
theorem isFloor_dates {U : Date → Prop} (first : Date → Date) (hU : ∀ d, U (first d))
    (hle : ∀ d : Date, ¬ d.Before (first d)) (hgreatest : ∀ d d' : Date, U d' → ¬ d.Before d' → ¬ (first d).Before d') :
    IsFloor {s | ∃ d, U d ∧ s = dayStart d} fun e => dayStart (first (civilDate (e / 86400))) := by
  intro e
  refine ⟨⟨⟨_, hU _, rfl⟩, (dayStart_le _ e).2 (hle _)⟩, ?_⟩
  rintro s ⟨⟨d', hd', rfl⟩, hse⟩
  have h := hgreatest _ d' hd' ((dayStart_le d' e).1 hse)
  rw [← Date.number_le_number] at h
  change dayStart d' ≤ dayStart (first (civilDate (e / 86400)))
  unfold dayStart
  omega

theorem dayStart_first {y m : Int} (h₁ : 1 ≤ m) (h₂ : m ≤ 12) :
    dayStart (Date.first y m h₁ h₂) = daysFromCivil y m 1 * 86400 + 0 * 3600 + 0 * 60 + 0 := by
  have h := daysFromCivil_date (Date.first y m h₁ h₂)
  unfold dayStart
  rw [← h]
  simp [Date.first]

/-- The units that start with a month: `first` is the last of their months up to a month. -/
theorem isFloor_months {U : Int → Prop} (first : Int → Int)
    (hfirst : ∀ m, 1 ≤ m → m ≤ 12 → 1 ≤ first m ∧ first m ≤ m ∧ U (first m) ∧ ∀ m', 1 ≤ m' → m' ≤ m → U m' → m' ≤ first m) :
    IsFloor {s | ∃ d : Date, (U d.month ∧ d.day = 1) ∧ s = dayStart d} fun e =>
      daysFromCivil (parts e).year (first (parts e).month) 1 * 86400 + 0 * 3600 + 0 * 60 + 0 := by
  have hspec := fun d : Date => hfirst d.month d.month_pos d.month_le
  have hle : ∀ d : Date, first d.month ≤ 12 := fun d => by
    have h₁ := (hspec d).2.1
    have h₂ := d.month_le
    omega
  have h := isFloor_dates (U := fun d => U d.month ∧ d.day = 1)
    (fun d => Date.first d.year (first d.month) (hspec d).1 (hle d))
    (fun d => ⟨(hspec d).2.2.1, rfl⟩) ?_ ?_
  · intro e
    have he := h e
    dsimp only at he
    rw [dayStart_first] at he
    exact he
  · intro d hbefore
    have h₁ := (hspec d).2.1
    have h₂ := d.day_pos
    simp only [Date.Before, Date.first] at hbefore
    omega
  · rintro d d' ⟨hU, hday⟩ hbefore hfirst
    have hlast := (hspec d).2.2.2 d'.month d'.month_pos
    have h₂ := d.day_pos
    simp only [Date.Before, Date.first] at hbefore hfirst
    by_cases hmonth : d'.month ≤ d.month
    · have hlast := hlast hmonth hU
      omega
    · omega

/-- The units that are a number of seconds. -/
theorem isFloor_seconds {k : Int} (hk : 0 < k) : IsFloor {s | s % k = 0} fun e => e - e % k := by
  intro e
  have hmod := Int.emod_nonneg e (by omega : k ≠ 0)
  refine ⟨⟨?_, by dsimp only; omega⟩, ?_⟩
  · exact Int.emod_eq_zero_of_dvd (Int.dvd_self_sub_emod)
  · rintro s ⟨hs, hse⟩
    dsimp only at hs ⊢
    have hs := Int.dvd_of_emod_eq_zero hs
    obtain ⟨q, rfl⟩ := hs
    have hdiv := Int.mul_ediv_add_emod e k
    have hq : q ≤ e / k := (Int.le_ediv_iff_mul_le hk).2 (by rw [Int.mul_comm]; exact hse)
    have hmul := Int.mul_le_mul_of_nonneg_left hq (Int.le_of_lt hk)
    omega

theorem isFloor_week : IsFloor {s | s % 86400 = 0 ∧ dayOfWeek s = 1} fun e =>
    (e / 86400 - (e / 86400 % 7 + 3) % 7) * 86400 := by
  intro e
  unfold dayOfWeek
  refine ⟨⟨⟨?_, ?_⟩, ?_⟩, ?_⟩
  · dsimp only
    omega
  · dsimp only
    omega
  · dsimp only
    omega
  · rintro s ⟨⟨hday, hweek⟩, hse⟩
    dsimp only at hday hweek ⊢
    omega

/-- The start of a day, an hour, a minute: the parts above it are kept. -/
theorem parts_trunc (e : Int) :
    daysFromCivil (parts e).year (parts e).month (parts e).day * 86400 = e - e % 86400 ∧
    (parts e).hour * 3600 = e % 86400 - e % 3600 ∧ (parts e).minute * 60 = e % 3600 - e % 60 := by
  obtain ⟨hy, hm, hd⟩ := parts_date e
  rw [hy, hm, hd, daysFromCivil_civilDate]
  have hhour : (parts e).hour = e % 86400 / 3600 := rfl
  have hminute : (parts e).minute = e % 86400 % 3600 / 60 := rfl
  rw [hhour, hminute]
  omega

/-- **`date_trunc` is the last start of its unit that has passed.** -/
theorem dateTrunc_isFloor {unit : String}
    (hunit : toAsciiLowercase unit ∈ ["year", "quarter", "month", "week", "day", "hour", "minute", "second"]) :
    ∃ f : Int → Int, (∀ e, dateTrunc unit e = some (f e)) ∧ IsFloor (unitStarts (toAsciiLowercase unit)) f := by
  unfold dateTrunc
  generalize toAsciiLowercase unit = u at hunit
  simp only [List.mem_cons, List.not_mem_nil, or_false] at hunit
  rcases hunit with rfl | rfl | rfl | rfl | rfl | rfl | rfl | rfl
  · exact ⟨_, fun _ => rfl, isFloor_months (U := fun m => m = 1) (fun _ => 1)
      fun m h₁ _ => ⟨le_refl _, h₁, rfl, fun _ _ _ h => le_of_eq h⟩⟩
  · refine ⟨_, fun _ => rfl, isFloor_months (U := fun m => m % 3 = 1) (fun m => (m - 1) / 3 * 3 + 1) ?_⟩
    intro m h₁ h₂
    refine ⟨by omega, by omega, by omega, ?_⟩
    intro m' h₁' hle hm'
    omega
  · have h := isFloor_months (U := fun _ => True) (fun m => m)
      fun m h₁ _ => ⟨h₁, le_refl m, trivial, fun _ _ h _ => h⟩
    simp only [true_and] at h
    exact ⟨_, fun _ => rfl, h⟩
  · exact ⟨_, fun _ => rfl, isFloor_week⟩
  · refine ⟨_, fun e => ?_, isFloor_seconds (k := 86400) (by omega)⟩
    have h := parts_trunc e
    change some (daysFromCivil (parts e).year (parts e).month (parts e).day * 86400 + 0 * 3600 + 0 * 60 + 0) = _
    exact congrArg some (by omega)
  · refine ⟨_, fun e => ?_, isFloor_seconds (k := 3600) (by omega)⟩
    have h := parts_trunc e
    change some (daysFromCivil (parts e).year (parts e).month (parts e).day * 86400 + (parts e).hour * 3600 + 0 * 60 + 0) = _
    exact congrArg some (by omega)
  · refine ⟨_, fun e => ?_, isFloor_seconds (k := 60) (by omega)⟩
    have h := parts_trunc e
    change some (daysFromCivil (parts e).year (parts e).month (parts e).day * 86400 + (parts e).hour * 3600 + (parts e).minute * 60 + 0) = _
    exact congrArg some (by omega)
  · exact ⟨_, fun _ => rfl, fun e => ⟨⟨trivial, le_refl _⟩, fun s hs => hs.2⟩⟩

/-! ## The calendar as a whole -/

/-- **Calendar arithmetic.** Day counts and dates of the Gregorian calendar correspond, the next
count being the next date; a timestamp of a four-digit year reads as the second it was formatted
from; and every unit of `date_trunc` takes a second to one not later, in order and once and for
all, a week to a Monday. -/
theorem calendar_arithmetic :
    (∀ z, civilFromDays z = ((civilDate z).year, (civilDate z).month, (civilDate z).day) ∧
      daysFromCivil (civilDate z).year (civilDate z).month (civilDate z).day = z ∧
      civilDate (z + 1) = (civilDate z).next) ∧
    (∀ e, 0 ≤ (parts e).year → (parts e).year ≤ 9999 → parseEpochSecs (formatTimestamp e) = some e) ∧
    (∀ unit, toAsciiLowercase unit ∈ ["year", "quarter", "month", "week", "day", "hour", "minute", "second"] →
      ∃ f : Int → Int, (∀ e, dateTrunc unit e = some (f e)) ∧ (∀ e, f (f e) = f e) ∧ (∀ e, f e ≤ e) ∧ Monotone f ∧
        (toAsciiLowercase unit = "week" → ∀ e, dayOfWeek (f e) = 1)) := by
  refine ⟨fun z => ⟨rfl, daysFromCivil_civilDate z, civilDate_succ z⟩,
    fun e => parseEpochSecs_formatTimestamp, fun unit hunit => ?_⟩
  obtain ⟨f, hf, hfloor⟩ := dateTrunc_isFloor hunit
  refine ⟨f, hf, hfloor.idempotent, hfloor.le, hfloor.monotone, fun hweek e => ?_⟩
  have hmem := hfloor.mem e
  rw [hweek] at hmem
  exact hmem.2

/-- The second before the year 2000, and a week by its name in capitals. -/
theorem calendar_arithmetic_1999 :
    parseEpochSecs (formatTimestamp 946684799) = some 946684799 ∧
    ∃ f : Int → Int, dateTrunc "WEEK" 946684799 = some (f 946684799) ∧ dayOfWeek (f 946684799) = 1 := by
  obtain ⟨f, hf, -, -, -, hweek⟩ := calendar_arithmetic.2.2 "WEEK" (by decide)
  exact ⟨calendar_arithmetic.2.1 946684799 (by decide) (by decide), f, hf _, hweek rfl _⟩

end Twill.Datetime
