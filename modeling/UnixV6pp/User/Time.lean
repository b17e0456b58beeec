import UnixV6pp.Lib.Calendar
import Mathlib.Data.Int.Notation
import Mathlib.Tactic.IntervalCases

/-!
# `mktime` and `localtime`

The unsigned numbers of 32 bits are integers below 2^32, cut off by `uint` after each operation.
`localtime` reads one entry too far in the table of week days; `beyond` is the number found there.

## Main definitions

* `mktime`, `localtime` — the functions.
* `Valid`, `Earlier` — a date and a time of day that the calendar has, and its order.

## Main results

* `yearLoop_spec`, `monthLoop_spec` — where the two loops of `localtime` stop.
* `localtime_earlier` — a later moment never gets the earlier date.
* `localtime_iff` — **the moment is got back from a valid date** exactly where it lies neither in
  January nor on the first day of a month.
-/

namespace UnixV6pp
namespace Time

open Calendar

/-! ### The functions -/

/-- The fields of a date and a time of day. -/
structure tm where
  Second : ℤ
  Minute : ℤ
  Hour : ℤ
  DayOfMonth : ℤ
  Month : ℤ
  Year : ℤ
  DayOfWeek : ℤ
deriving DecidableEq

/-- The number an `unsigned int` holds when `x` is stored in it. -/
def uint (x : ℤ) : ℤ := x % 2 ^ 32

def SECONDS_IN_MINUTE : ℕ := 60
def SECONDS_IN_HOUR : ℕ := 3600
def SECONDS_IN_DAY : ℕ := 86400

/-- A remainder is 0 in C where it is here. -/
def isLeapYear (year : ℤ) : Prop := year % 4 = 0 ∧ (year % 100 ≠ 0 ∨ year % 400 = 0)

instance (year : ℤ) : Decidable (isLeapYear year) := by
  unfold isLeapYear
  infer_instance

def daysBeforeMonth : List ℕ :=
  [0xFFFFFFFF, 0, 31, 59, 90, 120, 151, 181, 212, 243, 273, 304, 334]

def daysInMonth : List ℕ := [0xFFFFFFFF, 31, 28, 31, 30, 31, 30, 31, 31, 30, 31, 30, 31]

def weekdayNumber : List ℤ := [4, 5, 6, 7, 1, 2, 3]

/-- An entry of a table; there is none outside it. -/
def entry {α : Type*} (table : List α) (i : ℤ) : Option α :=
  if 0 ≤ i then table[i.toNat]? else none

def daysInYear (year : ℤ) : ℕ := if isLeapYear year then 366 else 365

/-- `for (year = 1970; year < currentYear; year++) days += daysInYear(year);` -/
def addYears (currentYear days : ℤ) : ℤ :=
  (List.range (currentYear - 1970).toNat).foldl
    (fun days (i : ℕ) => uint (days + daysInYear (1970 + (i : ℤ)))) days

/-- `mktime`: the seconds, and the structure with the day of the week; a month without an entry
in the table has no result. -/
def mktime (ptime : tm) : Option (ℤ × tm) := do
  let currentYear := 2000 + ptime.Year
  let timeInSeconds := uint ptime.Second
  let timeInSeconds := uint (timeInSeconds + ptime.Minute * SECONDS_IN_MINUTE)
  let timeInSeconds := uint (timeInSeconds + ptime.Hour * SECONDS_IN_HOUR)
  let days := uint (ptime.DayOfMonth - 1)
  let before ← entry daysBeforeMonth ptime.Month
  let days := uint (days + before)
  let days := if isLeapYear currentYear ∧ ptime.Month ≥ 3 then uint (days + 1) else days
  let days := addYears currentYear days
  let timeInSeconds := uint (timeInSeconds + uint (days * SECONDS_IN_DAY))
  let weekday ← entry weekdayNumber (days % 7)
  some (timeInSeconds, { ptime with DayOfWeek := weekday })

theorem le_daysInYear (year : ℤ) : 365 ≤ daysInYear year := by
  unfold daysInYear
  split <;> omega

/-- The loop over the years: the days left, and the year. -/
def yearLoop (days year : ℕ) : ℕ × ℕ :=
  if days ≥ 365 then
    if days ≥ daysInYear year then yearLoop (days - daysInYear year) (year + 1)
    else (days, year)
  else (days, year)
termination_by days
decreasing_by
  have := le_daysInYear year
  omega

/-- The length of month `i`. -/
def dayOfMonth (year i : ℕ) : ℕ :=
  if i = 2 ∧ isLeapYear year then daysInMonth.getD i 0 + 1 else daysInMonth.getD i 0

/-- The loop over the months: the days left, and the month. -/
def monthLoop (year : ℕ) : List ℕ → ℕ → ℕ → ℕ × ℕ
  | [], days, month => (days, month)
  | i :: rest, days, month =>
    if days > dayOfMonth year i then monthLoop year rest (days - dayOfMonth year i) (i + 1)
    else (days, month)

/-- `localtime`. -/
def localtime (beyond : ℤ) (timeInSeconds : ℕ) : tm :=
  let days := timeInSeconds / SECONDS_IN_DAY
  let weekday := weekdayNumber.getD (days % 7 + 1) beyond
  let (days, year) := yearLoop days 1970
  let (days, month) := monthLoop year (List.range' 1 12) days 0
  let secondsInToday := timeInSeconds % SECONDS_IN_DAY
  { Second := (secondsInToday % SECONDS_IN_MINUTE : ℕ)
    Minute := (secondsInToday % SECONDS_IN_HOUR / SECONDS_IN_MINUTE : ℕ)
    Hour := (secondsInToday / SECONDS_IN_HOUR : ℕ)
    DayOfMonth := days + 1
    Month := month
    Year := if year ≥ 2000 then year - 2000 else year - 1900
    DayOfWeek := weekday }

/-! ### What is expected -/

/-- The fields are those of a moment from the year 2000 on. -/
structure Valid (t : tm) : Prop where
  year : 0 ≤ t.Year
  month : 1 ≤ t.Month ∧ t.Month ≤ 12
  day : 1 ≤ t.DayOfMonth ∧ t.DayOfMonth ≤ monthLength (2000 + t.Year.toNat) t.Month.toNat
  hour : 0 ≤ t.Hour ∧ t.Hour < 24
  minute : 0 ≤ t.Minute ∧ t.Minute < 60
  second : 0 ≤ t.Second ∧ t.Second < 60

/-- The order of the calendar. -/
def Earlier (s t : tm) : Prop :=
  s.Year < t.Year ∨ s.Year = t.Year ∧ (s.Month < t.Month ∨ s.Month = t.Month ∧
    (s.DayOfMonth < t.DayOfMonth ∨ s.DayOfMonth = t.DayOfMonth ∧
      (s.Hour < t.Hour ∨ s.Hour = t.Hour ∧ (s.Minute < t.Minute ∨ s.Minute = t.Minute ∧
        s.Second < t.Second))))

/-! ### The tables -/

theorem isLeapYear_iff (year : ℕ) : isLeapYear year ↔ Leap year := by
  unfold isLeapYear Leap
  omega

theorem daysInYear_eq (year : ℕ) : daysInYear year = yearLength year := by
  unfold daysInYear yearLength
  simp only [isLeapYear_iff]

theorem dayOfMonth_eq (year : ℕ) {i : ℕ} (h : 1 ≤ i) (h' : i ≤ 12) :
    dayOfMonth year i = monthLength year i := by
  unfold dayOfMonth monthLength
  simp only [isLeapYear_iff]
  by_cases hleap : Leap year
  · simp only [hleap, and_true, if_true]
    revert i
    decide
  · simp only [hleap, and_false, if_false]
    revert i
    decide

/-- The table of the days before a month, with the leap day added behind February. -/
theorem daysBeforeMonth_eq (year : ℕ) {j : ℕ} (h : j < 12) :
    ∃ before, entry daysBeforeMonth ((j + 1 : ℕ) : ℤ) = some before ∧
      before + (if isLeapYear year ∧ ((j + 1 : ℕ) : ℤ) ≥ 3 then 1 else 0) = monthBegins year j := by
  by_cases hleap : Leap year
  · simp only [isLeapYear_iff, hleap, true_and]
    interval_cases j <;> exact ⟨_, rfl, by simp [monthBegins, monthLength, hleap]⟩
  · simp only [isLeapYear_iff, hleap, false_and, if_false]
    interval_cases j <;> exact ⟨_, rfl, by simp [monthBegins, monthLength, hleap]⟩

/-! ### The loops of `localtime` -/

/-- The loop over the years stops in the year that the day lies in. -/
theorem yearLoop_spec {days year : ℕ} (h : 1970 ≤ year) : 1970 ≤ (yearLoop days year).2 ∧
    yearBegins 1970 (yearLoop days year).2 + (yearLoop days year).1 =
      yearBegins 1970 year + days ∧
    (yearLoop days year).1 < yearLength (yearLoop days year).2 := by
  have hlen : 365 ≤ yearLength year := daysInYear_eq year ▸ le_daysInYear year
  induction days using Nat.strongRecOn generalizing year with
  | ind days ih =>
    rw [yearLoop, daysInYear_eq]
    by_cases hge : days ≥ yearLength year
    · have hnext : 365 ≤ yearLength (year + 1) := daysInYear_eq (year + 1) ▸ le_daysInYear _
      obtain ⟨hyear, hsum, hlt⟩ := ih (days - yearLength year) (by omega) (by omega) hnext
      rw [if_pos (by omega), if_pos hge]
      rw [yearBegins_succ h] at hsum
      exact ⟨hyear, by omega, hlt⟩
    · rw [if_neg hge, ite_self]
      exact ⟨h, rfl, Nat.lt_of_not_ge hge⟩

/-- The month that the loop over the months gives after `j` months have been taken off. -/
def monthAfter (j : ℕ) : ℕ := if j = 0 then 0 else j + 1

/-- The loop over the months takes a month off only if a day is left behind it. -/
theorem monthLoop_spec (year : ℕ) {n i days month : ℕ} (hn : i + n = 12)
    (hmonth : month = monthAfter i) (hdays : monthBegins year i + days < yearLength year)
    (hi : i = 0 ∨ 0 < days) :
    ∃ j < 12, monthBegins year j + (monthLoop year (List.range' (i + 1) n) days month).1 =
        monthBegins year i + days ∧
      (j = 0 ∨ 0 < (monthLoop year (List.range' (i + 1) n) days month).1) ∧
      (monthLoop year (List.range' (i + 1) n) days month).1 ≤ monthLength year (j + 1) ∧
      (monthLoop year (List.range' (i + 1) n) days month).2 = monthAfter j := by
  induction n generalizing i days month with
  | zero =>
    have htwelve : i = 12 := hn
    rw [htwelve, monthBegins_twelve] at hdays
    omega
  | succ n ih =>
    rw [List.range'_succ, monthLoop, dayOfMonth_eq year (by omega) (by omega)]
    have hsucc : monthBegins year (i + 1) = monthBegins year i + monthLength year (i + 1) := rfl
    split
    next hgt =>
      obtain ⟨j, hj, hsum, hrest⟩ := @ih (i + 1) (days - monthLength year (i + 1)) (i + 1 + 1)
        (by omega) rfl (by omega) (Or.inr (by omega))
      exact ⟨j, hj, by omega, hrest⟩
    next hle => exact ⟨i, by omega, rfl, hi, by omega, hmonth⟩

/-- What `localtime` finds for the day `n`: the year, the months taken off, and the days left. -/
structure Found (n year j left : ℕ) : Prop where
  epoch : 1970 ≤ year
  sum : yearBegins 1970 year + (monthBegins year j + left) = n
  inYear : monthBegins year j + left < yearLength year
  index : j < 12
  pos : j = 0 ∨ 0 < left
  le : left ≤ monthLength year (j + 1)

/-- The date that `localtime` makes of it. -/
theorem exists_found (beyond : ℤ) (t : ℕ) : ∃ year j left, Found (t / 86400) year j left ∧
    (localtime beyond t).Year = (if year ≥ 2000 then (year : ℤ) - 2000 else year - 1900) ∧
    (localtime beyond t).Month = monthAfter j ∧ (localtime beyond t).DayOfMonth = left + 1 := by
  obtain ⟨hyear, hsum, hlt⟩ := @yearLoop_spec (t / 86400) 1970 (by decide)
  have hzero : yearBegins 1970 1970 = 0 := rfl
  have hfirst : ∀ year, monthBegins year 0 = 0 := fun _ => rfl
  have hdays : monthBegins (yearLoop (t / 86400) 1970).2 0 + (yearLoop (t / 86400) 1970).1 <
      yearLength (yearLoop (t / 86400) 1970).2 := by
    rw [hfirst]
    omega
  obtain ⟨j, hj, hmonth, hpos, hle, hafter⟩ :=
    @monthLoop_spec (yearLoop (t / 86400) 1970).2 12 0 _ 0 rfl rfl hdays (Or.inl rfl)
  rw [hfirst] at hmonth
  refine ⟨_, j, _, ⟨hyear, ?_, ?_, hj, hpos, hle⟩, rfl, ?_, rfl⟩
  · omega
  · omega
  · exact congrArg Nat.cast hafter

theorem Found.lt {n year j left : ℕ} (h : Found n year j left) :
    n < yearBegins 1970 (year + 1) := by
  have hsum := h.sum
  have hlt := h.inYear
  rw [yearBegins_succ h.epoch]
  omega

/-- From the day 10957 on it is the year 2000. -/
theorem Found.le_year {n year j left : ℕ} (h : Found n year j left) (hn : 10957 ≤ n) :
    2000 ≤ year := by
  by_contra hlt
  have hmono : yearBegins 1970 (year + 1) ≤ yearBegins 1970 2000 := yearBegins_mono (by omega)
  have hthirty : yearBegins 1970 2000 = 10957 := by decide
  have := h.lt
  omega

/-! ### The order -/

/-- A later day is found later, also where it is counted as one more day of the month before. -/
theorem Found.before {n n' y y' j j' left left' : ℕ} (h : Found n y j left)
    (h' : Found n' y' j' left') (hlt : n < n') :
    y < y' ∨ y = y' ∧ (j < j' ∨ j = j' ∧ left < left') := by
  have hsum := h.sum
  have hsum' := h'.sum
  have hyear : y ≤ y' := by
    by_contra hcontra
    have hmono : yearBegins 1970 (y' + 1) ≤ yearBegins 1970 y := yearBegins_mono (by omega)
    have := h'.lt
    omega
  rcases Nat.lt_or_eq_of_le hyear with hy | rfl
  · exact Or.inl hy
  · have hmonth : j ≤ j' := by
      by_contra hcontra
      have hmono : monthBegins y (j' + 1) ≤ monthBegins y j := monthBegins_mono y (by omega)
      have hsucc : monthBegins y (j' + 1) = monthBegins y j' + monthLength y (j' + 1) := rfl
      have hle := h'.le
      have hpos := h.pos
      omega
    rcases Nat.lt_or_eq_of_le hmonth with hj | rfl
    · exact Or.inr ⟨rfl, Or.inl hj⟩
    · exact Or.inr ⟨rfl, Or.inr ⟨rfl, by omega⟩⟩

theorem monthAfter_lt {j j' : ℕ} (h : j < j') : monthAfter j < monthAfter j' := by
  unfold monthAfter
  split <;> split <;> omega

/-- The date depends on the day only. -/
theorem localtime_sameDay (beyond : ℤ) {t t' : ℕ} (h : t / 86400 = t' / 86400) :
    (localtime beyond t).Year = (localtime beyond t').Year ∧
      (localtime beyond t).Month = (localtime beyond t').Month ∧
      (localtime beyond t).DayOfMonth = (localtime beyond t').DayOfMonth := by
  have hday : t / SECONDS_IN_DAY = t' / SECONDS_IN_DAY := h
  simp only [localtime, hday, and_self]

/-- The time of day. -/
theorem localtime_clock (beyond : ℤ) (t : ℕ) :
    (localtime beyond t).Hour = (t % 86400 / 3600 : ℕ) ∧
      (localtime beyond t).Minute = (t % 86400 % 3600 / 60 : ℕ) ∧
      (localtime beyond t).Second = (t % 86400 % 60 : ℕ) :=
  ⟨rfl, rfl, rfl⟩

/-- A later moment never gets the earlier date. -/
theorem localtime_earlier (beyond : ℤ) {t t' : ℕ} (h : 946684800 ≤ t) (hlt : t < t') :
    Earlier (localtime beyond t) (localtime beyond t') := by
  obtain ⟨hhour, hminute, hsecond⟩ := localtime_clock beyond t
  obtain ⟨hhour', hminute', hsecond'⟩ := localtime_clock beyond t'
  have hdays : t / 86400 ≤ t' / 86400 := Nat.div_le_div_right hlt.le
  unfold Earlier
  rcases Nat.lt_or_eq_of_le hdays with hday | hday
  · obtain ⟨y, j, left, hf, hyear, hmonth, hleft⟩ := exists_found beyond t
    obtain ⟨y', j', left', hf', hyear', hmonth', hleft'⟩ := exists_found beyond t'
    have hy := hf.le_year (by omega)
    have hy' := hf'.le_year (by omega)
    rw [if_pos hy] at hyear
    rw [if_pos hy'] at hyear'
    rcases hf.before hf' hday with hlt | ⟨rfl, hlt | ⟨rfl, hlt⟩⟩
    · omega
    · have := monthAfter_lt hlt
      omega
    · omega
  · -- within a day the clock goes on
    obtain ⟨hy, hm, hd⟩ := localtime_sameDay beyond hday
    omega

/-! ### The way back -/

theorem entry_eq_some {α : Type*} {table : List α} {i : ℤ} (h : 0 ≤ i) (h' : i < table.length) :
    ∃ a, entry table i = some a := by
  rw [entry, if_pos h]
  exact ⟨_, List.getElem?_eq_getElem (by omega)⟩

/-- The loop of `mktime` over the years, as long as nothing overflows. -/
theorem addYears_eq {y : ℕ} {days : ℤ} (hy : 1970 ≤ y) (h : 0 ≤ days)
    (h' : days + yearBegins 1970 y < 2 ^ 32) : addYears y days = days + yearBegins 1970 y := by
  obtain ⟨k, rfl⟩ : ∃ k, y = 1970 + k := ⟨y - 1970, by omega⟩
  have hcount : (((1970 + k : ℕ) : ℤ) - 1970).toNat = k := by omega
  have hsub : 1970 + k - 1970 = k := by omega
  unfold yearBegins at h' ⊢
  rw [addYears, hcount]
  rw [hsub] at h' ⊢
  clear hcount hsub hy
  induction k with
  | zero => simp
  | succ k ih =>
    rw [begins_succ] at h' ⊢
    have hcast : (1970 + (k : ℤ)) = ((1970 + k : ℕ) : ℤ) := by omega
    rw [List.range_succ, List.foldl_append, ih (by omega), List.foldl_cons, List.foldl_nil, uint,
      hcast, daysInYear_eq, Int.emod_eq_of_lt (by omega) (by omega)]
    omega

theorem uint_of_lt {x : ℤ} (h : 0 ≤ x) (h' : x < 2 ^ 32) : uint x = x := Int.emod_eq_of_lt h h'

/-- `mktime` of a date whose month the tables know. -/
theorem mktime_eq {ptime : tm} {y j left : ℕ} (hy : 1970 ≤ y) (hj : j < 12)
    (hyear : 2000 + ptime.Year = y) (hmonth : ptime.Month = (j + 1 : ℕ))
    (hday : ptime.DayOfMonth = left + 1) (hhour : 0 ≤ ptime.Hour) (hminute : 0 ≤ ptime.Minute)
    (hsecond : 0 ≤ ptime.Second)
    (hlt : ((yearBegins 1970 y + (monthBegins y j + left) : ℕ) : ℤ) * 86400 + ptime.Hour * 3600 +
      ptime.Minute * 60 + ptime.Second < 2 ^ 32) :
    (mktime ptime).map Prod.fst =
      some (((yearBegins 1970 y + (monthBegins y j + left) : ℕ) : ℤ) * 86400 + ptime.Hour * 3600 +
        ptime.Minute * 60 + ptime.Second) := by
  obtain ⟨before, hentry, hbefore⟩ := daysBeforeMonth_eq y hj
  obtain ⟨weekday, hweekday⟩ := @entry_eq_some ℤ weekdayNumber
    (((yearBegins 1970 y + (monthBegins y j + left) : ℕ) : ℤ) % 7) (by omega)
    (Int.emod_lt_of_pos _ (by decide))
  have hdays : (if isLeapYear y ∧ ((j + 1 : ℕ) : ℤ) ≥ 3 then uint ((left : ℤ) + before + 1)
      else left + before) = ((monthBegins y j + left : ℕ) : ℤ) := by
    split at hbefore
    next h =>
      rw [if_pos h, uint_of_lt (by omega) (by omega)]
      omega
    next h =>
      rw [if_neg h]
      omega
  have hyears := @addYears_eq y ((monthBegins y j + left : ℕ) : ℤ) hy (by omega) (by omega)
  have htotal : ((monthBegins y j + left : ℕ) : ℤ) + yearBegins 1970 y =
      ((yearBegins 1970 y + (monthBegins y j + left) : ℕ) : ℤ) := by omega
  have hbound : (before : ℤ) ≤ monthBegins y j := by omega
  have hfirst : uint ((left : ℤ) + 1 - 1) = left := by
    rw [add_sub_cancel_right]
    exact uint_of_lt (by omega) (by omega)
  have hstart : uint ((left : ℤ) + before) = left + before := uint_of_lt (by omega) (by omega)
  have hs : uint ptime.Second = ptime.Second := uint_of_lt hsecond (by omega)
  have hm : uint (ptime.Second + ptime.Minute * 60) = ptime.Second + ptime.Minute * 60 :=
    uint_of_lt (by omega) (by omega)
  have hh : uint (ptime.Second + ptime.Minute * 60 + ptime.Hour * 3600) =
      ptime.Second + ptime.Minute * 60 + ptime.Hour * 3600 := uint_of_lt (by omega) (by omega)
  have hd : uint (((yearBegins 1970 y + (monthBegins y j + left) : ℕ) : ℤ) * 86400) =
      ((yearBegins 1970 y + (monthBegins y j + left) : ℕ) : ℤ) * 86400 :=
    uint_of_lt (by omega) (by omega)
  rw [mktime, hyear, hmonth, hday, hentry, Option.bind_eq_bind, Option.bind_some]
  simp only [SECONDS_IN_MINUTE, SECONDS_IN_HOUR, SECONDS_IN_DAY, Nat.cast_ofNat, hfirst, hstart,
    hdays, hyears, htotal, hweekday, hs, hm, hh, hd]
  rw [Option.bind_eq_bind, Option.bind_some, uint_of_lt (by omega) (by omega)]
  simp only [Option.map_some, Option.some.injEq]
  omega

/-! ### Against the calendar -/

/-- The day found is the place of the date in its year. -/
theorem Found.place {n y j left : ℕ} (h : Found n y j left) : (date 1970 n).year = y ∧
    monthBegins y ((date 1970 n).month - 1) + ((date 1970 n).day - 1) =
      monthBegins y j + left := by
  have hsum := h.sum
  have hnumber := number_date 1970 n
  have hlt := Date.number_lt (le_year_date 1970 n)
  have hlt' := h.lt
  unfold Date.number at hnumber hlt
  have hyear : (date 1970 n).year = y := by
    rcases Nat.lt_trichotomy (date 1970 n).year y with hy | hy | hy
    · have hmono : yearBegins 1970 ((date 1970 n).year + 1) ≤ yearBegins 1970 y :=
        yearBegins_mono (by omega)
      omega
    · exact hy
    · have hmono : yearBegins 1970 (y + 1) ≤ yearBegins 1970 (date 1970 n).year :=
        yearBegins_mono (by omega)
      omega
  rw [hyear] at hnumber
  exact ⟨hyear, by omega⟩

/-- Behind January and the first of its month, a day is found where it is. -/
theorem Found.date_eq {n y j left : ℕ} (h : Found n y j left) (hm : (date 1970 n).month ≠ 1)
    (hd : (date 1970 n).day ≠ 1) :
    1 ≤ j ∧ (date 1970 n).month = j + 1 ∧ (date 1970 n).day = left + 1 := by
  obtain ⟨hyear, hplace⟩ := h.place
  have hlt := (date 1970 n).dayOfYear_lt
  have hmonth := (date 1970 n).month_pos
  have hday := (date 1970 n).day_pos
  have hle := h.le
  have hsucc : monthBegins y (j + 1) = monthBegins y j + monthLength y (j + 1) := rfl
  rw [hyear] at hlt
  rcases Nat.lt_trichotomy j ((date 1970 n).month - 1) with hj | hj | hj
  · have hmono : monthBegins y (j + 1) ≤ monthBegins y ((date 1970 n).month - 1) :=
      monthBegins_mono y hj
    omega
  · rw [← hj] at hplace
    omega
  · have hmono : monthBegins y ((date 1970 n).month - 1 + 1) ≤ monthBegins y j :=
      monthBegins_mono y hj
    omega

/-- A day found inside a month behind January is not the first one. -/
theorem Found.date_ne {n y j left : ℕ} (h : Found n y j left) (hj : 1 ≤ j)
    (hleft : left < monthLength y (j + 1)) :
    (date 1970 n).month ≠ 1 ∧ (date 1970 n).day ≠ 1 := by
  obtain ⟨hyear, hplace⟩ := h.place
  have hlt := (date 1970 n).dayOfYear_lt
  have hday := (date 1970 n).day_pos
  have hpos := h.pos
  have hsucc : monthBegins y (j + 1) = monthBegins y j + monthLength y (j + 1) := rfl
  rw [hyear] at hlt
  have hbelow : monthBegins y j ≤
      monthBegins y ((date 1970 n).month - 1) + ((date 1970 n).day - 1) := by omega
  have habove : monthBegins y ((date 1970 n).month - 1) + ((date 1970 n).day - 1) <
      monthBegins y (j + 1) := by omega
  have hindex : (date 1970 n).month - 1 = j :=
    index_unique (Nat.le_add_right _ _) hlt hbelow habove
  rw [hindex] at hplace
  omega

/-- The date `localtime` gives is valid where a month has been taken off and the days left lie
within the next one. -/
theorem localtime_valid_iff (beyond : ℤ) {t y j left : ℕ} (h : Found (t / 86400) y j left) (hy : 2000 ≤ y)
    (hyear : (localtime beyond t).Year = (if y ≥ 2000 then (y : ℤ) - 2000 else y - 1900))
    (hmonth : (localtime beyond t).Month = monthAfter j)
    (hday : (localtime beyond t).DayOfMonth = left + 1) :
    Valid (localtime beyond t) ↔ 1 ≤ j ∧ left < monthLength y (j + 1) := by
  obtain ⟨hhour, hminute, hsecond⟩ := localtime_clock beyond t
  have hcentury : 2000 + (localtime beyond t).Year.toNat = y := by
    rw [hyear, if_pos hy]
    omega
  have hindex := h.index
  constructor
  · intro hvalid
    have hpos : 1 ≤ j := by
      have hone := hvalid.month.1
      rw [hmonth] at hone
      unfold monthAfter at hone
      split at hone <;> omega
    have hafter : (localtime beyond t).Month.toNat = j + 1 := by
      rw [hmonth, monthAfter, if_neg (by omega)]
      rfl
    have hle := hvalid.day.2
    rw [hcentury, hafter, hday] at hle
    exact ⟨hpos, by omega⟩
  · rintro ⟨hpos, hlt⟩
    have hafter : (localtime beyond t).Month = (j + 1 : ℕ) := by
      rw [hmonth, monthAfter, if_neg (by omega)]
    refine ⟨?_, ?_, ?_, by omega, by omega, by omega⟩
    · rw [hyear, if_pos hy]
      omega
    · rw [hafter]
      omega
    · rw [hcentury, hafter, hday, Int.toNat_natCast]
      omega

/-- **The moment is got back from a valid date** exactly where it lies neither in January nor on
the first day of a month. -/
theorem localtime_iff (beyond : ℤ) {t : ℕ} (h : 946684800 ≤ t) (ht : t < 2 ^ 32) :
    (Valid (localtime beyond t) ∧ (mktime (localtime beyond t)).map Prod.fst = some (t : ℤ) ∧
      ∀ t', t < t' → t' < 2 ^ 32 → Earlier (localtime beyond t) (localtime beyond t')) ↔
      (date 1970 (t / 86400)).month ≠ 1 ∧ (date 1970 (t / 86400)).day ≠ 1 := by
  obtain ⟨y, j, left, hf, hyear, hmonth, hday⟩ := exists_found beyond t
  have hy := hf.le_year (by omega)
  rw [localtime_valid_iff beyond hf hy hyear hmonth hday]
  constructor
  · rintro ⟨⟨hpos, hlt⟩, -⟩
    exact hf.date_ne hpos hlt
  · rintro ⟨hm, hd⟩
    obtain ⟨hpos, hmonth_eq, hday_eq⟩ := hf.date_eq hm hd
    obtain ⟨hhour, hminute, hsecond⟩ := localtime_clock beyond t
    have hafter : (localtime beyond t).Month = (j + 1 : ℕ) := by
      rw [hmonth, monthAfter, if_neg (by omega)]
    have hlt : left < monthLength y (j + 1) := by
      have := (date 1970 (t / 86400)).day_le
      rw [hf.place.1, hmonth_eq, hday_eq] at this
      omega
    have hsum := hf.sum
    have hback : (((yearBegins 1970 y + (monthBegins y j + left) : ℕ) : ℤ) * 86400 +
        (localtime beyond t).Hour * 3600 + (localtime beyond t).Minute * 60 +
        (localtime beyond t).Second) = t := by
      rw [hsum, hhour, hminute, hsecond]
      omega
    refine ⟨⟨hpos, hlt⟩, ?_, fun t' hlt' _ => localtime_earlier beyond h hlt'⟩
    rw [mktime_eq hf.epoch hf.index (by rw [hyear, if_pos hy]; omega) hafter hday (by omega)
      (by omega) (by omega) (by omega), hback]

/-- The 29th of February 2000, at noon. -/
theorem localtime_iff_leapDay :
    (Valid (localtime 0 951825600) ∧
      (mktime (localtime 0 951825600)).map Prod.fst = some ((951825600 : ℕ) : ℤ) ∧
      ∀ t', 951825600 < t' → t' < 2 ^ 32 →
        Earlier (localtime 0 951825600) (localtime 0 t')) := by
  let leapDay : Date := ⟨2000, 2, 29, by decide, by decide, by decide, by decide⟩
  have hnumber : leapDay.number 1970 = 951825600 / 86400 := by decide
  have hdate : date 1970 (951825600 / 86400) = leapDay := hnumber ▸ date_number (by decide)
  refine (localtime_iff 0 (by decide) (by decide)).mpr ?_
  rw [hdate]
  decide

/-- The first moment of the year 2000 gets no month, and is taken back to the day before. -/
theorem exists_wrong_month : ∃ t, 946684800 ≤ t ∧ t < 2 ^ 32 ∧ ¬ Valid (localtime 0 t) ∧
    (mktime (localtime 0 t)).map Prod.fst ≠ some (t : ℤ) := by
  have hlocal : localtime 0 946684800 = ⟨0, 0, 0, 1, 0, 0, 7⟩ := by
    have hmonths : monthLoop 2000 (List.range' 1 12) 0 0 = (0, 0) := by decide
    simp [localtime, yearLoop, daysInYear, isLeapYear, SECONDS_IN_DAY, SECONDS_IN_HOUR,
      SECONDS_IN_MINUTE, weekdayNumber, hmonths]
  refine ⟨946684800, by decide, by decide, fun hvalid => ?_, ?_⟩
  · have := hvalid.month.1
    rw [hlocal] at this
    exact absurd this (by decide)
  · rw [hlocal]
    decide

end Time
end UnixV6pp
