/-
The proleptic Gregorian calendar on day numbers.

Day `0` is 1970-01-01. `dayNumber` goes from a year, month and day to the day
number, accepting a month outside `1 … 12` and a day outside the month and
carrying both over; `yearOf`, `monthOf` and `dayOf` go back. Everything here is
floor division by constants, so the proofs are case splits on the position
inside a 400-year cycle followed by `omega`.

The inverse is stated one way only, `dayNumber_civil`: the fields of a day lead
back to that day.
-/
import Mathlib.Algebra.Order.Ring.Int
import Mathlib.Tactic.Ring

set_option autoImplicit false

namespace Civil

/-! ## Years -/

/-- The Gregorian leap-year rule. -/
def isLeapYear (y : ℤ) : Bool :=
  decide (y % 4 = 0) && (decide (y % 100 ≠ 0) || decide (y % 400 = 0))

/-- The day number of January 1 of year `y`. -/
def dayFromYear (y : ℤ) : ℤ :=
  365 * (y - 1970) + (y - 1969) / 4 - (y - 1901) / 100 + (y - 1601) / 400

/-- The year day `n` lies in, by the 400-, 100-, 4- and 1-year cycles. The two
`min`s keep the last day of a leap cycle in that cycle. -/
def yearOf (n : ℤ) : ℤ :=
  let n' := n + 719162
  let n400 := n' / 146097
  let d400 := n' % 146097
  let n100 := min (d400 / 36524) 3
  let d100 := d400 - 36524 * n100
  let n4 := d100 / 1461
  let n1 := min (d100 % 1461 / 365) 3
  400 * n400 + 100 * n100 + 4 * n4 + n1 + 1

/-- The number of days of year `y`. -/
def yearLength (y : ℤ) : ℤ := if isLeapYear y then 366 else 365

theorem dayFromYear_succ (y : ℤ) : dayFromYear (y + 1) = dayFromYear y + yearLength y := by
  simp only [dayFromYear, yearLength, isLeapYear, Bool.and_eq_true, Bool.or_eq_true,
    decide_eq_true_eq]
  split <;> omega

/-- The year cycles, opened: `n` written by its position in each of them. -/
theorem yearOf_cycles (n : ℤ) : ∃ a b c d r : ℤ,
    n + 719162 = 146097 * a + 36524 * b + 1461 * c + 365 * d + r
      ∧ yearOf n = 400 * a + 100 * b + 4 * c + d + 1
      ∧ 0 ≤ b ∧ b ≤ 3 ∧ 0 ≤ c ∧ c ≤ 24 ∧ 0 ≤ d ∧ d ≤ 3 ∧ 0 ≤ r ∧ r ≤ 365
      ∧ (r = 365 → d = 3 ∧ (c < 24 ∨ b = 3)) := by
  refine ⟨_, _, _, _,
    ((n + 719162) % 146097 - 36524 * min ((n + 719162) % 146097 / 36524) 3) % 1461
      - 365 * min (((n + 719162) % 146097 - 36524 * min ((n + 719162) % 146097 / 36524) 3)
          % 1461 / 365) 3, ?_, rfl, ?_⟩
  · omega
  · omega

/-- Day `n` lies in year `yearOf n`. -/
theorem yearOf_bounds (n : ℤ) :
    dayFromYear (yearOf n) ≤ n ∧ n < dayFromYear (yearOf n) + yearLength (yearOf n) := by
  obtain ⟨a, b, c, d, r, hn, hy, hb0, hb3, hc0, hc24, hd0, hd3, hr0, hr365, hlast⟩ :=
    yearOf_cycles n
  rw [hy]
  simp only [dayFromYear, yearLength, isLeapYear, Bool.and_eq_true, Bool.or_eq_true,
    decide_eq_true_eq]
  split <;> omega

theorem dayFromYear_mono {y y' : ℤ} (h : y ≤ y') : dayFromYear y ≤ dayFromYear y' := by
  simp only [dayFromYear]
  omega

/-- A day no more than a week before is in the same year or the one before. -/
theorem yearOf_le {m n : ℤ} (h : n - 7 ≤ m) : yearOf n - 1 ≤ yearOf m := by
  have hn := (yearOf_bounds n).1
  have hm := (yearOf_bounds m).2
  by_contra hlt
  -- else a whole year would lie between
  have hmono := dayFromYear_mono (show yearOf m + 1 ≤ yearOf n - 1 by omega)
  have hnext := dayFromYear_succ (yearOf m)
  have hsucc := dayFromYear_succ (yearOf n - 1)
  have hlen : 365 ≤ yearLength (yearOf n - 1) := by
    unfold yearLength
    split <;> omega
  rw [sub_add_cancel] at hsucc
  omega

/-! ## Months -/

/-- The number of days before month `m` in a year, `1 ≤ m ≤ 12`. -/
def daysUntilMonth (leap : Bool) (m : ℤ) : ℤ :=
  (367 * m - 362) / 12 - (if m ≤ 2 then 0 else if leap then 1 else 2)

/-- The day number of day `d` of month `m` of year `y`. Months outside
`1 … 12` and days outside the month carry over. -/
def dayNumber (y m d : ℤ) : ℤ :=
  let y' := y + (m - 1) / 12
  let m' := (m - 1) % 12 + 1
  dayFromYear y' + daysUntilMonth (isLeapYear y') m' + (d - 1)

/-- The position of day `n` in its year, from `0`. -/
def dayOfYear (n : ℤ) : ℤ := n - dayFromYear (yearOf n)

def monthOf (n : ℤ) : ℤ :=
  let leap := isLeapYear (yearOf n)
  let corr := if dayOfYear n < (if leap then 60 else 59) then 0 else if leap then 1 else 2
  (12 * (dayOfYear n + corr) + 373) / 367

def dayOf (n : ℤ) : ℤ := dayOfYear n - daysUntilMonth (isLeapYear (yearOf n)) (monthOf n) + 1

theorem dayOfYear_bounds (n : ℤ) : 0 ≤ dayOfYear n ∧ dayOfYear n < yearLength (yearOf n) := by
  have := yearOf_bounds n
  simp only [dayOfYear]
  omega

theorem monthOf_bounds (n : ℤ) : 1 ≤ monthOf n ∧ monthOf n ≤ 12 := by
  have hb := dayOfYear_bounds n
  simp only [monthOf, yearLength] at hb ⊢
  cases hl : isLeapYear (yearOf n) with
  | true =>
      simp only [hl, if_true] at hb ⊢
      split <;> omega
  | false =>
      simp only [hl, Bool.false_eq_true, if_false] at hb ⊢
      split <;> omega

/-- The fields of a day lead back to the day. -/
theorem dayNumber_civil (n : ℤ) : dayNumber (yearOf n) (monthOf n) (dayOf n) = n := by
  have hm := monthOf_bounds n
  have hq : (monthOf n - 1) / 12 = 0 := by omega
  have hr : (monthOf n - 1) % 12 + 1 = monthOf n := by omega
  simp only [dayNumber, hq, hr, add_zero, dayOf, dayOfYear]
  omega

/-- Going to the next month goes at least 28 days on, whatever the year. -/
theorem dayNumber_month_succ (y m d : ℤ) :
    dayNumber y m d + 28 ≤ dayNumber y (m + 1) d := by
  by_cases h : m % 12 = 0
  · obtain ⟨k, rfl⟩ : ∃ k, m = 12 * k := ⟨m / 12, by omega⟩
    have h1 : (12 * k - 1) / 12 = k - 1 := by omega
    have h2 : (12 * k + 1 - 1) / 12 = k := by omega
    have h3 : (12 * k - 1) % 12 + 1 = 12 := by omega
    have h4 : (12 * k + 1 - 1) % 12 + 1 = 1 := by omega
    -- December: the month after it is in the next year
    have hs := dayFromYear_succ (y + (k - 1))
    rw [show y + (k - 1) + 1 = y + k by ring] at hs
    simp only [dayNumber, h1, h2, h3, h4, daysUntilMonth, yearLength, hs]
    cases hl : isLeapYear (y + (k - 1)) with
    | true => simp only [if_true]; omega
    | false => simp only [Bool.false_eq_true, if_false]; omega
  · -- any other month: the year stays
    have h1 : (m + 1 - 1) / 12 = (m - 1) / 12 := by omega
    have h2 : (m + 1 - 1) % 12 = (m - 1) % 12 + 1 := by omega
    simp only [dayNumber, h1, h2, daysUntilMonth]
    split <;> split <;> omega

/-! ## Months, counted through

Counted from January of year `0`, months are consecutive numbers, and the days
of one lie between the first of it and the first of the next. -/

/-- The first day of month `k`. -/
def monthStart (k : ℤ) : ℤ := dayNumber 0 (k + 1) 1

/-- The number of days of month `k`. -/
def monthLength (k : ℤ) : ℤ := monthStart (k + 1) - monthStart k

/-- The month day `n` lies in. -/
def monthIndex (n : ℤ) : ℤ := 12 * yearOf n + (monthOf n - 1)

theorem dayNumber_eq (y m d : ℤ) :
    dayNumber y m d = monthStart (12 * y + (m - 1)) + (d - 1) := by
  have hy : (0 : ℤ) + (12 * y + (m - 1) + 1 - 1) / 12 = y + (m - 1) / 12 := by omega
  have hm : (12 * y + (m - 1) + 1 - 1) % 12 = (m - 1) % 12 := by omega
  simp only [monthStart, dayNumber, hy, hm]
  omega

/-- A day past the end of a month is one of the next. -/
theorem dayNumber_add (y m d k : ℤ) : dayNumber y m (d + k) = dayNumber y m d + k := by
  rw [dayNumber_eq, dayNumber_eq]
  ring

theorem monthStart_add_dayOf (n : ℤ) : monthStart (monthIndex n) + (dayOf n - 1) = n := by
  rw [monthIndex, ← dayNumber_eq, dayNumber_civil]

theorem monthStart_eq (k : ℤ) : monthStart k
    = dayFromYear (k / 12) + daysUntilMonth (isLeapYear (k / 12)) (k % 12 + 1) := by
  have hq : (0 : ℤ) + (k + 1 - 1) / 12 = k / 12 := by omega
  have hr : (k + 1 - 1) % 12 = k % 12 := by omega
  simp only [monthStart, dayNumber, hq, hr, sub_self, add_zero]

/-- The month after one starts where the table of its own year goes on, past
December too. -/
theorem monthStart_succ (k : ℤ) : monthStart (k + 1)
    = dayFromYear (k / 12) + daysUntilMonth (isLeapYear (k / 12)) (k % 12 + 2) := by
  rw [monthStart_eq]
  by_cases h : k % 12 = 11
  · have hq : (k + 1) / 12 = k / 12 + 1 := by omega
    have hr : (k + 1) % 12 = 0 := by omega
    rw [hq, hr, h, dayFromYear_succ]
    simp only [daysUntilMonth, yearLength]
    split <;> split <;> omega
  · have hq : (k + 1) / 12 = k / 12 := by omega
    have hr : (k + 1) % 12 = k % 12 + 1 := by omega
    rw [hq, hr]
    ring_nf

theorem monthLength_bounds (k : ℤ) : 28 ≤ monthLength k ∧ monthLength k ≤ 31 := by
  rw [monthLength, monthStart_succ, monthStart_eq]
  simp only [daysUntilMonth]
  cases isLeapYear (k / 12) with
  | true =>
      simp only [if_true]
      omega
  | false =>
      simp only [Bool.false_eq_true, if_false]
      omega

/-- The month table, read backwards: `monthOf`'s formula finds the month that a
position in the year falls in. -/
theorem daysUntilMonth_bounds (leap : Bool) {i : ℤ} (h0 : 0 ≤ i)
    (h : i < if leap then 366 else 365) :
    let corr := if i < (if leap then 60 else 59) then 0 else if leap then 1 else 2
    let m := (12 * (i + corr) + 373) / 367
    daysUntilMonth leap m ≤ i ∧ i < daysUntilMonth leap (m + 1) := by
  simp only [daysUntilMonth]
  cases leap with
  | true =>
      simp only [if_true] at *
      by_cases hi : i < 60
      · simp only [if_pos hi]
        omega
      · simp only [if_neg hi]
        omega
  | false =>
      simp only [Bool.false_eq_true, if_false] at *
      by_cases hi : i < 59
      · simp only [if_pos hi]
        omega
      · simp only [if_neg hi]
        omega

/-- A day is one of its month's. -/
theorem dayOf_bounds (n : ℤ) : 1 ≤ dayOf n ∧ dayOf n ≤ monthLength (monthIndex n) := by
  have hday := dayOfYear_bounds n
  have hmonth := monthOf_bounds n
  have htable : daysUntilMonth (isLeapYear (yearOf n)) (monthOf n) ≤ dayOfYear n
      ∧ dayOfYear n < daysUntilMonth (isLeapYear (yearOf n)) (monthOf n + 1) :=
    daysUntilMonth_bounds (isLeapYear (yearOf n)) hday.1 hday.2
  have hq : monthIndex n / 12 = yearOf n := by
    simp only [monthIndex]
    omega
  have hr : monthIndex n % 12 = monthOf n - 1 := by
    simp only [monthIndex]
    omega
  have hthis : monthOf n - 1 + 1 = monthOf n := by omega
  have hnext : monthOf n - 1 + 2 = monthOf n + 1 := by omega
  rw [monthLength, monthStart_succ, monthStart_eq, hq, hr, hthis, hnext, dayOf]
  omega

theorem monthStart_mono {j k : ℤ} (h : j ≤ k) : monthStart j ≤ monthStart k := by
  induction k, h using Int.leInduction with
  | base => exact le_refl _
  | succ k _ ih =>
      have hk := (monthLength_bounds k).1
      unfold monthLength at hk
      omega

/-- The months do not overlap, so a day lies in the one that holds it. -/
theorem monthIndex_unique {k n : ℤ} (hstart : monthStart k ≤ n) (hend : n < monthStart (k + 1)) :
    monthIndex n = k := by
  have hn := monthStart_add_dayOf n
  have hday := dayOf_bounds n
  unfold monthLength at hday
  rcases lt_trichotomy (monthIndex n) k with hlt | heq | hgt
  · have hmono := monthStart_mono (show monthIndex n + 1 ≤ k from hlt)
    omega
  · exact heq
  · have hmono := monthStart_mono (show k + 1 ≤ monthIndex n from hgt)
    omega

/-- Day `d` of month `k`, where the month has one. -/
theorem dayOf_monthStart {k d : ℤ} (h1 : 1 ≤ d) (h : d ≤ monthLength k) :
    monthIndex (monthStart k + (d - 1)) = k ∧ dayOf (monthStart k + (d - 1)) = d := by
  have hindex : monthIndex (monthStart k + (d - 1)) = k := by
    unfold monthLength at h
    exact monthIndex_unique (by omega) (by omega)
  refine ⟨hindex, ?_⟩
  have hn := monthStart_add_dayOf (monthStart k + (d - 1))
  rw [hindex] at hn
  omega

/-! ## Weeks -/

/-- The weekday of day `n`, Monday `1` to Sunday `7`. -/
def weekdayOf (n : ℤ) : ℤ := (n + 3) % 7 + 1

/-- The number of the Monday-to-Sunday week day `n` lies in. -/
def weekOf (n : ℤ) : ℤ := (n + 3) / 7

theorem weekdayOf_bounds (n : ℤ) : 1 ≤ weekdayOf n ∧ weekdayOf n ≤ 7 := by
  simp only [weekdayOf]
  omega

/-- A later day is in another week exactly when its weekday went back or seven
days have passed. -/
theorem weekOf_ne_iff {m n : ℤ} (h : m ≤ n) :
    weekOf m ≠ weekOf n ↔ weekdayOf n < weekdayOf m ∨ m + 7 ≤ n := by
  simp only [weekOf, weekdayOf]
  omega

example : dayNumber 2022 1 1 = 18993 := by decide
example : (yearOf 19782, monthOf 19782, dayOf 19782) = (2024, 2, 29) := by decide

end Civil
