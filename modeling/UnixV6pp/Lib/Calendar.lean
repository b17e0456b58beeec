import Mathlib.Data.Nat.Notation
import Mathlib.Logic.Function.Iterate
import Mathlib.Tactic.Common

/-!
# The Gregorian calendar

Days are counted from the first of January of an epoch. The date of a day is found by going on
from one date to the next; its number by adding up the years, the months and the days before it.

## Main definitions

* `begins` — where consecutive blocks of given lengths begin.
* `Date`, `Date.next`, `date` — the dates, the next one, and the date of a day.
* `Date.number` — the days before a date.

## Main results

* `index_unique` — a number lies in one block only.
* `number_next`, `number_date`, `date_number` — **the date of a day has that day's number**, and
  no other date has it.
-/

namespace Calendar

/-! ### Blocks -/

/-- Where block `k` begins, with the blocks of lengths `len` one behind the other. -/
def begins (len : ℕ → ℕ) : ℕ → ℕ
  | 0 => 0
  | k + 1 => begins len k + len k

@[simp] theorem begins_zero (len : ℕ → ℕ) : begins len 0 = 0 := rfl

@[simp] theorem begins_succ (len : ℕ → ℕ) (k : ℕ) : begins len (k + 1) = begins len k + len k := rfl

theorem begins_mono {len : ℕ → ℕ} {j k : ℕ} (h : j ≤ k) : begins len j ≤ begins len k := by
  induction h with
  | refl => exact Nat.le_refl _
  | step _ ih =>
    rw [begins_succ]
    omega

/-- A number lies in one block only. -/
theorem index_unique {len : ℕ → ℕ} {n j k : ℕ} (hj : begins len j ≤ n)
    (hj' : n < begins len (j + 1)) (hk : begins len k ≤ n) (hk' : n < begins len (k + 1)) :
    j = k := by
  rcases Nat.lt_trichotomy j k with h | h | h
  · have hle : begins len (j + 1) ≤ begins len k := begins_mono h
    omega
  · exact h
  · have hle : begins len (k + 1) ≤ begins len j := begins_mono h
    omega

/-! ### Years and months -/

/-- Every fourth year is a leap year, but of the full centuries every fourth only. -/
def Leap (year : ℕ) : Prop := year % 4 = 0 ∧ (year % 100 ≠ 0 ∨ year % 400 = 0)

instance (year : ℕ) : Decidable (Leap year) := by
  unfold Leap
  infer_instance

def yearLength (year : ℕ) : ℕ := if Leap year then 366 else 365

/-- The months are counted from 1. -/
def monthLength (year month : ℕ) : ℕ :=
  if month = 2 then if Leap year then 29 else 28
  else if month = 4 ∨ month = 6 ∨ month = 9 ∨ month = 11 then 30
  else 31

/-- The days of a year before the month with the index `k`, from 0 on. -/
def monthBegins (year : ℕ) : ℕ → ℕ := begins fun i => monthLength year (i + 1)

/-- The days before a year, from the epoch on. -/
def yearBegins (epoch year : ℕ) : ℕ := begins (fun i => yearLength (epoch + i)) (year - epoch)

theorem monthLength_pos (year month : ℕ) : 0 < monthLength year month := by
  unfold monthLength
  split_ifs <;> omega

/-- The twelve months make up a year. -/
theorem monthBegins_twelve (year : ℕ) : monthBegins year 12 = yearLength year := by
  by_cases h : Leap year <;> simp [monthBegins, monthLength, yearLength, h]

theorem yearBegins_succ {epoch year : ℕ} (h : epoch ≤ year) :
    yearBegins epoch (year + 1) = yearBegins epoch year + yearLength year := by
  have hsub : year + 1 - epoch = year - epoch + 1 := by omega
  rw [yearBegins, hsub, begins_succ, Nat.add_sub_of_le h]
  rfl

theorem yearBegins_mono {epoch y y' : ℕ} (h : y ≤ y') : yearBegins epoch y ≤ yearBegins epoch y' :=
  begins_mono (Nat.sub_le_sub_right h epoch)

theorem monthBegins_mono (year : ℕ) {j k : ℕ} (h : j ≤ k) :
    monthBegins year j ≤ monthBegins year k :=
  begins_mono h

/-! ### Dates -/

/-- A date of the calendar. -/
@[ext] structure Date where
  year : ℕ
  month : ℕ
  day : ℕ
  month_pos : 1 ≤ month
  month_le : month ≤ 12
  day_pos : 1 ≤ day
  day_le : day ≤ monthLength year month

namespace Date

/-- The first day of a year. -/
def newYear (year : ℕ) : Date := ⟨year, 1, 1, by decide, by decide, by decide, monthLength_pos _ _⟩

/-- The day after. -/
def next (d : Date) : Date :=
  if h : d.day < monthLength d.year d.month then
    ⟨d.year, d.month, d.day + 1, d.month_pos, d.month_le, by omega, h⟩
  else if h' : d.month < 12 then
    ⟨d.year, d.month + 1, 1, by omega, h', by decide, monthLength_pos _ _⟩
  else newYear (d.year + 1)

/-- The days before a date, from the epoch on. -/
def number (epoch : ℕ) (d : Date) : ℕ :=
  yearBegins epoch d.year + monthBegins d.year (d.month - 1) + (d.day - 1)

/-- The days of its year up to the end of a month. -/
theorem monthBegins_month (d : Date) : monthBegins d.year d.month =
    monthBegins d.year (d.month - 1) + monthLength d.year d.month := by
  obtain ⟨k, hk⟩ : ∃ k, d.month = k + 1 := ⟨d.month - 1, by have := d.month_pos; omega⟩
  rw [hk]
  rfl

theorem number_next {epoch : ℕ} {d : Date} (h : epoch ≤ d.year) :
    d.next.number epoch = d.number epoch + 1 := by
  have hpos := d.day_pos
  have hle := d.day_le
  have hmonth := d.monthBegins_month
  unfold next
  split_ifs with hday hlast
  · change yearBegins epoch d.year + monthBegins d.year (d.month - 1) + (d.day + 1 - 1) = _
    unfold number
    omega
  · -- the last day of a month
    change yearBegins epoch d.year + monthBegins d.year d.month + 0 = _
    unfold number
    omega
  · -- the last day of a year
    have htwelve : d.month = 12 := by
      have := d.month_le
      omega
    have hyear := monthBegins_twelve d.year
    have hnext := yearBegins_succ h
    rw [htwelve] at hmonth
    change yearBegins epoch (d.year + 1) + 0 + 0 = _
    unfold number
    rw [htwelve]
    rw [htwelve] at hday hle
    omega

theorem le_year_next (d : Date) : d.year ≤ d.next.year := by
  unfold next
  split_ifs
  · exact Nat.le_refl _
  · exact Nat.le_refl _
  · exact Nat.le_succ _

/-- The days of a date lie in its year. -/
theorem number_lt {epoch : ℕ} {d : Date} (h : epoch ≤ d.year) :
    d.number epoch < yearBegins epoch (d.year + 1) := by
  have hle := d.day_le
  have hpos := d.day_pos
  have hmonth := d.monthBegins_month
  have hmono : monthBegins d.year d.month ≤ monthBegins d.year 12 :=
    monthBegins_mono d.year d.month_le
  rw [monthBegins_twelve] at hmono
  rw [yearBegins_succ h]
  unfold number
  omega

end Date

/-- The place of a date among the days of its year. -/
theorem Date.dayOfYear_lt (d : Date) :
    monthBegins d.year (d.month - 1) + (d.day - 1) < monthBegins d.year (d.month - 1 + 1) := by
  have hle := d.day_le
  have hpos := d.day_pos
  rw [Nat.sub_add_cancel d.month_pos, d.monthBegins_month]
  omega

/-- Two dates with one number are the same. -/
theorem Date.number_inj {epoch : ℕ} {d d' : Date} (h : epoch ≤ d.year) (h' : epoch ≤ d'.year)
    (heq : d.number epoch = d'.number epoch) : d = d' := by
  have hlt := number_lt h
  have hlt' := number_lt h'
  have hyear : d.year = d'.year := by
    have hsucc : d.year + 1 - epoch = d.year - epoch + 1 := by omega
    have hsucc' : d'.year + 1 - epoch = d'.year - epoch + 1 := by omega
    have hle : yearBegins epoch d.year ≤ d.number epoch := by
      unfold number
      omega
    have hle' : yearBegins epoch d'.year ≤ d'.number epoch := by
      unfold number
      omega
    rw [yearBegins, hsucc] at hlt
    rw [yearBegins, hsucc', ← heq] at hlt'
    have := index_unique hle hlt (heq ▸ hle') hlt'
    omega
  have hday := d.dayOfYear_lt
  have hday' := d'.dayOfYear_lt
  have hmonth_pos := d.month_pos
  have hmonth_pos' := d'.month_pos
  have hday_pos := d.day_pos
  have hday_pos' := d'.day_pos
  unfold number at heq
  rw [← hyear] at heq hday'
  have hmonth : d.month = d'.month := by
    have hle' : monthBegins d.year (d'.month - 1) ≤
        monthBegins d.year (d.month - 1) + (d.day - 1) := by omega
    have heq' : monthBegins d.year (d'.month - 1) + (d'.day - 1) =
        monthBegins d.year (d.month - 1) + (d.day - 1) := by omega
    have := index_unique (Nat.le_add_right _ _) hday hle' (heq' ▸ hday')
    omega
  rw [← hmonth] at heq
  exact Date.ext hyear hmonth (by omega)

/-- The date of day `n`. -/
def date (epoch n : ℕ) : Date := Date.next^[n] (Date.newYear epoch)

theorem date_succ (epoch n : ℕ) : date epoch (n + 1) = (date epoch n).next :=
  Function.iterate_succ_apply' _ _ _

theorem le_year_date (epoch n : ℕ) : epoch ≤ (date epoch n).year := by
  induction n with
  | zero => exact Nat.le_refl _
  | succ n ih =>
    rw [date_succ]
    exact Nat.le_trans ih (Date.le_year_next _)

/-- **The date of a day has that day's number.** -/
theorem number_date (epoch n : ℕ) : (date epoch n).number epoch = n := by
  induction n with
  | zero =>
    change begins _ (epoch - epoch) + 0 + 0 = 0
    rw [Nat.sub_self, begins_zero]
  | succ n ih => rw [date_succ, Date.number_next (le_year_date epoch n), ih]

/-- The number of a date leads back to it. -/
theorem date_number {epoch : ℕ} {d : Date} (h : epoch ≤ d.year) : date epoch (d.number epoch) = d :=
  Date.number_inj (le_year_date _ _) h (number_date _ _)

end Calendar
