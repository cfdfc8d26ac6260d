/-
Dart's `DateTime` and `Duration`, over a local time zone.

A `DateTime` is a number of microseconds since the epoch and the `isUtc` flag.
Its calendar fields are read off its wall clock, which for a local value is the
instant shifted by the zone's offset there; the constructor goes the other way,
from a wall clock to an instant. Both directions belong to the zone, which is a
parameter: `Zone.fixed` is the zone of constant offset, and nothing above it
assumes a particular zone.

An offset is a whole number of seconds, as the platform reports it, and less
than a day. The first is what lets a value survive the cut to milliseconds on
its own calendar day (`Lasting.epochDay`). A wall clock that the zone skips is
resolved to some instant near it, no further than three days: a constructor
that names a date at most one day off stays within them (`Zone.ofDates`).
-/
import AquaFocus.Lib.Civil
import Mathlib.Order.Monotone.Basic

set_option autoImplicit false

namespace Dart

/-! ## Durations, in microseconds -/

def microsecondsPerMillisecond : ℤ := 1000
def microsecondsPerSecond : ℤ := 1000000
def microsecondsPerMinute : ℤ := 60000000
def microsecondsPerHour : ℤ := 3600000000
def microsecondsPerDay : ℤ := 86400000000

/-- `Duration(days: n)`. -/
def days (n : ℤ) : ℤ := n * microsecondsPerDay

/-- `Duration(minutes: n)`. -/
def minutes (n : ℤ) : ℤ := n * microsecondsPerMinute

/-- `Duration(seconds: n)`. -/
def seconds (n : ℤ) : ℤ := n * microsecondsPerSecond

/-- `Duration.inSeconds`, which truncates. -/
def inSeconds (d : ℤ) : ℤ := d.tdiv microsecondsPerSecond

theorem inSeconds_of_nonneg {d : ℤ} (h : 0 ≤ d) : inSeconds d = d / microsecondsPerSecond :=
  Int.tdiv_eq_ediv_of_nonneg h

theorem inSeconds_seconds (n : ℤ) : inSeconds (seconds n) = n :=
  Int.mul_tdiv_cancel n (by decide)

/-- `Duration.inHours`, which truncates. -/
def inHours (d : ℤ) : ℤ := d.tdiv microsecondsPerHour

/-- `Duration.inDays`, which truncates. -/
def inDays (d : ℤ) : ℤ := d.tdiv microsecondsPerDay

theorem inDays_days (n : ℤ) : inDays (days n) = n := Int.mul_tdiv_cancel n (by decide)

/-- `(h / 24).round()` for an integer `h`: halves go away from zero. -/
def roundDiv24 (h : ℤ) : ℤ := if 0 ≤ h then (h + 12) / 24 else -((-h + 12) / 24)

/-- Less than half a day more or less than whole days is rounded away. -/
theorem roundDiv24_inHours (k : ℤ) {e : ℤ} (hlo : -(12 * microsecondsPerHour) < e)
    (hhi : e < 12 * microsecondsPerHour) : roundDiv24 (inHours (days k + e)) = k := by
  simp only [inHours, days, microsecondsPerDay, microsecondsPerHour] at *
  by_cases h : 0 ≤ k * 86400000000 + e
  · rw [Int.tdiv_eq_ediv_of_nonneg h]
    unfold roundDiv24
    split <;> omega
  · -- below zero both the cut and the rounding go the other way
    rw [← neg_neg (k * 86400000000 + e), Int.neg_tdiv, Int.tdiv_eq_ediv_of_nonneg (by omega)]
    unfold roundDiv24
    split <;> omega

/-- The rounded count of days goes up with the duration. -/
theorem roundDiv24_inHours_mono {d e : ℤ} (h : d ≤ e) :
    roundDiv24 (inHours d) ≤ roundDiv24 (inHours e) := by
  have hhours : inHours d ≤ inHours e := Int.tdiv_le_tdiv (by decide) h
  unfold roundDiv24
  split <;> split <;> omega

theorem roundDiv24_inHours_days (k : ℤ) : roundDiv24 (inHours (days k)) = k := by
  rw [← add_zero (days k), roundDiv24_inHours k (by decide) (by decide)]

/-! ## Zones and dates -/

/-- An offset from UTC. -/
structure UtcOffset where
  seconds : ℤ
  lower : -86400 < seconds
  upper : seconds < 86400

def UtcOffset.utc : UtcOffset := ⟨0, by decide, by decide⟩

/-- A local time zone: its offset at an instant, and the instant a wall clock is
resolved to, whole seconds and less than three days from it. Instants and wall
clocks are in microseconds. -/
structure Zone where
  offsetAt : ℤ → UtcOffset
  instantOf : ℤ → ℤ
  resolves : ∀ w, ∃ s, instantOf w = w - s * microsecondsPerSecond ∧ -259200 < s ∧ s < 259200

/-- The zone with one offset at all times. -/
def Zone.fixed (offset : UtcOffset) : Zone where
  offsetAt _ := offset
  instantOf w := w - offset.seconds * microsecondsPerSecond
  resolves _ := ⟨offset.seconds, rfl, lt_trans (by decide) offset.lower,
    lt_trans offset.upper (by decide)⟩

/-- A zone whose wall clocks are resolved to instants that show their date or one
a day off. -/
def Zone.ofDates (offsetAt : ℤ → UtcOffset) (instantOf : ℤ → ℤ)
    (whole : ∀ w, microsecondsPerSecond ∣ w - instantOf w)
    (before : ∀ w, w / microsecondsPerDay - 1
      ≤ (instantOf w + (offsetAt (instantOf w)).seconds * microsecondsPerSecond)
        / microsecondsPerDay)
    (after : ∀ w, (instantOf w + (offsetAt (instantOf w)).seconds * microsecondsPerSecond)
        / microsecondsPerDay
      ≤ w / microsecondsPerDay + 1) : Zone where
  offsetAt := offsetAt
  instantOf := instantOf
  resolves w := by
    obtain ⟨s, hs⟩ := whole w
    have hbefore := before w
    have hafter := after w
    have hl := (offsetAt (instantOf w)).lower
    have hu := (offsetAt (instantOf w)).upper
    simp only [microsecondsPerSecond, microsecondsPerDay] at *
    exact ⟨s, by omega, by omega, by omega⟩

/-- A zone whose offset changes at whole milliseconds only. -/
def Zone.ByMillis (z : Zone) : Prop :=
  ∀ x, z.offsetAt (x / microsecondsPerMillisecond * microsecondsPerMillisecond) = z.offsetAt x

theorem Zone.fixed_byMillis (offset : UtcOffset) : (Zone.fixed offset).ByMillis := fun _ => rfl

structure DateTime where
  microsecondsSinceEpoch : ℤ
  isUtc : Bool
deriving DecidableEq, Repr

namespace DateTime

/-- The wall clock a value shows, in microseconds since the epoch. -/
def wallClock (z : Zone) (t : DateTime) : ℤ :=
  if t.isUtc then t.microsecondsSinceEpoch
  else t.microsecondsSinceEpoch
    + (z.offsetAt t.microsecondsSinceEpoch).seconds * microsecondsPerSecond

/-- The calendar day a value lies on, as a day number. -/
def epochDay (z : Zone) (t : DateTime) : ℤ := t.wallClock z / microsecondsPerDay

def year (z : Zone) (t : DateTime) : ℤ := Civil.yearOf (t.epochDay z)
def month (z : Zone) (t : DateTime) : ℤ := Civil.monthOf (t.epochDay z)
def day (z : Zone) (t : DateTime) : ℤ := Civil.dayOf (t.epochDay z)
def weekday (z : Zone) (t : DateTime) : ℤ := Civil.weekdayOf (t.epochDay z)
def hour (z : Zone) (t : DateTime) : ℤ :=
  t.wallClock z % microsecondsPerDay / microsecondsPerHour
def minute (z : Zone) (t : DateTime) : ℤ :=
  t.wallClock z % microsecondsPerHour / microsecondsPerMinute

/-- `DateTime(y, m, d, h, mi)`. -/
def ofFields (z : Zone) (y m d h mi : ℤ) : DateTime where
  microsecondsSinceEpoch := z.instantOf
    (days (Civil.dayNumber y m d) + h * microsecondsPerHour + mi * microsecondsPerMinute)
  isUtc := false

/-- `DateTime(y, m, d)`. -/
def ofDate (z : Zone) (y m d : ℤ) : DateTime := ofFields z y m d 0 0

/-- `DateTime.utc(y, m, d, h)`. -/
def utc (y m d h : ℤ) : DateTime where
  microsecondsSinceEpoch := days (Civil.dayNumber y m d) + h * microsecondsPerHour
  isUtc := true

/-- The UTC midnight of day `n`. -/
def utcDay (n : ℤ) : DateTime := ⟨days n, true⟩

/-- `DateTime.fromMillisecondsSinceEpoch`. -/
def ofMillis (ms : ℤ) : DateTime := ⟨ms * microsecondsPerMillisecond, false⟩

/-- `DateTime.fromMicrosecondsSinceEpoch`, and what `DateTime.now()` reads. -/
def ofMicros (us : ℤ) : DateTime := ⟨us, false⟩

/-- `millisecondsSinceEpoch`, which truncates. -/
def millisecondsSinceEpoch (t : DateTime) : ℤ :=
  t.microsecondsSinceEpoch.tdiv microsecondsPerMillisecond

theorem millisecondsSinceEpoch_ofMillis (ms : ℤ) : (ofMillis ms).millisecondsSinceEpoch = ms :=
  Int.mul_tdiv_cancel ms (by decide)

def add (t : DateTime) (d : ℤ) : DateTime := ⟨t.microsecondsSinceEpoch + d, t.isUtc⟩
def subtract (t : DateTime) (d : ℤ) : DateTime := ⟨t.microsecondsSinceEpoch - d, t.isUtc⟩
def difference (t u : DateTime) : ℤ := t.microsecondsSinceEpoch - u.microsecondsSinceEpoch
def isBefore (t u : DateTime) : Bool :=
  decide (t.microsecondsSinceEpoch < u.microsecondsSinceEpoch)
def isAfter (t u : DateTime) : Bool :=
  decide (u.microsecondsSinceEpoch < t.microsecondsSinceEpoch)
def isAtSameMomentAs (t u : DateTime) : Bool :=
  decide (t.microsecondsSinceEpoch = u.microsecondsSinceEpoch)

/-- `compareTo`. -/
def compareTo (t u : DateTime) : ℤ :=
  if t.microsecondsSinceEpoch < u.microsecondsSinceEpoch then -1
  else if u.microsecondsSinceEpoch < t.microsecondsSinceEpoch then 1
  else 0

/-- `DateTime(t.year, t.month, t.day)`: the midnight of a value's calendar day. -/
def midnight (z : Zone) (t : DateTime) : DateTime := ofDate z (t.year z) (t.month z) (t.day z)

/-- The midnight of a value is the midnight of its day number, whatever the zone. -/
theorem midnight_eq (z : Zone) (t : DateTime) :
    t.midnight z = ⟨z.instantOf (days (t.epochDay z)), false⟩ := by
  unfold midnight ofDate ofFields year month day
  rw [Civil.dayNumber_civil, zero_mul, zero_mul, add_zero, add_zero]

/-- A value is less than a day from its wall clock. -/
theorem wallClock_bounds (z : Zone) (t : DateTime) :
    t.microsecondsSinceEpoch - microsecondsPerDay < t.wallClock z
      ∧ t.wallClock z < t.microsecondsSinceEpoch + microsecondsPerDay := by
  have hl := (z.offsetAt t.microsecondsSinceEpoch).lower
  have hu := (z.offsetAt t.microsecondsSinceEpoch).upper
  unfold wallClock
  simp only [microsecondsPerDay, microsecondsPerSecond]
  by_cases hutc : t.isUtc = true
  · rw [if_pos hutc]
    omega
  · rw [if_neg hutc]
    omega

/-- `DateTime(y, m, d)` is less than three days from the day it names. -/
theorem ofDate_bounds (z : Zone) (y m d : ℤ) :
    days (Civil.dayNumber y m d) - 3 * microsecondsPerDay < (ofDate z y m d).microsecondsSinceEpoch
      ∧ (ofDate z y m d).microsecondsSinceEpoch
        < days (Civil.dayNumber y m d) + 3 * microsecondsPerDay := by
  obtain ⟨s, hs, hl, hu⟩ := z.resolves (days (Civil.dayNumber y m d))
  simp only [ofDate, ofFields, zero_mul, add_zero, hs, microsecondsPerDay, microsecondsPerSecond]
  omega

theorem hour_bounds (z : Zone) (t : DateTime) : 0 ≤ t.hour z ∧ t.hour z < 24 := by
  simp only [hour, microsecondsPerDay, microsecondsPerHour]
  omega

theorem minute_bounds (z : Zone) (t : DateTime) : 0 ≤ t.minute z ∧ t.minute z < 60 := by
  simp only [minute, microsecondsPerHour, microsecondsPerMinute]
  omega

/-- A wall clock is its day, its hour and what is past the hour. -/
theorem wallClock_split (z : Zone) (t : DateTime) :
    t.wallClock z = days (t.epochDay z) + t.hour z * microsecondsPerHour
      + t.wallClock z % microsecondsPerHour := by
  simp only [epochDay, hour, days, microsecondsPerDay, microsecondsPerHour]
  omega

/-- A value made of the year, the month and the day of values that lie on one day. -/
theorem ofFields_of_epochDay {z : Zone} {t u v : DateTime} {n : ℤ} (ht : t.epochDay z = n)
    (hu : u.epochDay z = n) (hv : v.epochDay z = n) (h mi : ℤ) :
    (ofFields z (t.year z) (u.month z) (v.day z) h mi).microsecondsSinceEpoch
      = z.instantOf (days n + h * microsecondsPerHour + mi * microsecondsPerMinute) := by
  simp only [ofFields, year, month, day, ht, hu, hv, Civil.dayNumber_civil]

/-- Two values show the same date exactly when they lie on one day. -/
theorem sameDate_iff {z : Zone} {t u : DateTime} :
    (t.year z = u.year z ∧ t.month z = u.month z ∧ t.day z = u.day z)
      ↔ t.epochDay z = u.epochDay z := by
  constructor
  · rintro ⟨hy, hm, hd⟩
    simp only [year, month, day] at hy hm hd
    rw [← Civil.dayNumber_civil (t.epochDay z), hy, hm, hd, Civil.dayNumber_civil]
  · intro h
    unfold year month day
    rw [h]
    exact ⟨rfl, rfl, rfl⟩

/-! ## UTC values

What they show does not depend on the zone. -/

theorem epochDay_utc (z : Zone) (y m d : ℤ) {h : ℤ} (hh : 0 ≤ h ∧ h < 24) :
    (utc y m d h).epochDay z = Civil.dayNumber y m d := by
  simp only [epochDay, wallClock, utc, if_true, days, microsecondsPerDay, microsecondsPerHour]
  omega

@[simp] theorem epochDay_utcDay (z : Zone) (n : ℤ) : (utcDay n).epochDay z = n :=
  Int.mul_ediv_cancel n (by decide)

/-! ## The cut to milliseconds -/

/-- A local value that goes on showing its minute when it is cut to milliseconds:
from 1970 on the cut goes down, and whole milliseconds are not cut at all. -/
structure Lasting (t : DateTime) : Prop where
  isUtc : t.isUtc = false
  whole : 0 ≤ t.microsecondsSinceEpoch ∨ microsecondsPerMillisecond ∣ t.microsecondsSinceEpoch

theorem lasting_ofMillis (ms : ℤ) : (ofMillis ms).Lasting := ⟨rfl, .inr (Dvd.intro_left ms rfl)⟩

namespace Lasting

variable {t : DateTime} {z : Zone}

theorem ofMillis_eq (h : t.Lasting) : ofMillis t.millisecondsSinceEpoch
    = ⟨t.microsecondsSinceEpoch / microsecondsPerMillisecond * microsecondsPerMillisecond,
        false⟩ := by
  have hcut : t.millisecondsSinceEpoch = t.microsecondsSinceEpoch / microsecondsPerMillisecond :=
    h.whole.elim Int.tdiv_eq_ediv_of_nonneg Int.tdiv_eq_ediv_of_dvd
  rw [ofMillis, hcut]

/-- Offsets are whole seconds, so the wall clock is cut as the instant is. -/
theorem wallClock (h : t.Lasting) (hz : z.ByMillis) :
    (ofMillis t.millisecondsSinceEpoch).wallClock z
      = t.wallClock z / microsecondsPerMillisecond * microsecondsPerMillisecond := by
  have hoffset := hz t.microsecondsSinceEpoch
  rw [h.ofMillis_eq]
  simp only [DateTime.wallClock, h.isUtc, Bool.false_eq_true, if_false, hoffset]
  simp only [microsecondsPerMillisecond, microsecondsPerSecond]
  omega

theorem epochDay (h : t.Lasting) (hz : z.ByMillis) :
    (ofMillis t.millisecondsSinceEpoch).epochDay z = t.epochDay z := by
  simp only [DateTime.epochDay, h.wallClock hz, microsecondsPerMillisecond, microsecondsPerDay]
  omega

theorem hour (h : t.Lasting) (hz : z.ByMillis) :
    (ofMillis t.millisecondsSinceEpoch).hour z = t.hour z := by
  simp only [DateTime.hour, h.wallClock hz, microsecondsPerMillisecond, microsecondsPerDay,
    microsecondsPerHour]
  omega

theorem minute (h : t.Lasting) (hz : z.ByMillis) :
    (ofMillis t.millisecondsSinceEpoch).minute z = t.minute z := by
  simp only [DateTime.minute, h.wallClock hz, microsecondsPerMillisecond, microsecondsPerHour,
    microsecondsPerMinute]
  omega

end Lasting

/-! ## A zone of constant offset

Every local value is `⟨w - offset, false⟩` for its wall clock `w`, so the whole
of `DateTime` arithmetic is arithmetic on wall clocks. -/

section Fixed

variable (offset : UtcOffset)

/-- The midnight of day `n`. -/
def dayStart (n : ℤ) : DateTime := ⟨days n - offset.seconds * microsecondsPerSecond, false⟩

theorem wallClock_fixed (t : DateTime) (ht : t.isUtc = false) :
    t.wallClock (.fixed offset)
      = t.microsecondsSinceEpoch + offset.seconds * microsecondsPerSecond := by
  unfold wallClock
  rw [ht]
  rfl

theorem epochDay_ofMicros (x : ℤ) : (ofMicros x).epochDay (.fixed offset)
    = (x + offset.seconds * microsecondsPerSecond) / microsecondsPerDay := by
  unfold epochDay
  rw [wallClock_fixed offset _ rfl]
  rfl

theorem midnight_fixed (t : DateTime) :
    t.midnight (.fixed offset) = dayStart offset (t.epochDay (.fixed offset)) := by
  rw [midnight_eq]
  rfl

@[simp] theorem epochDay_dayStart (n : ℤ) : (dayStart offset n).epochDay (.fixed offset) = n := by
  unfold epochDay
  rw [wallClock_fixed offset _ rfl]
  simp only [dayStart, days, microsecondsPerDay]
  omega

/-- Later instants lie on later days. -/
theorem epochDay_mono {t u : DateTime} (ht : t.isUtc = false) (hu : u.isUtc = false)
    (h : t.microsecondsSinceEpoch ≤ u.microsecondsSinceEpoch) :
    t.epochDay (.fixed offset) ≤ u.epochDay (.fixed offset) := by
  unfold epochDay
  rw [wallClock_fixed offset t ht, wallClock_fixed offset u hu]
  simp only [microsecondsPerDay]
  omega

/-- Days of 24 hours are calendar days. -/
theorem epochDay_add_days (t : DateTime) (ht : t.isUtc = false) (k : ℤ) :
    (t.add (days k)).epochDay (.fixed offset) = t.epochDay (.fixed offset) + k := by
  unfold epochDay
  rw [wallClock_fixed offset (t.add (days k)) ht, wallClock_fixed offset t ht]
  simp only [add, days, microsecondsPerDay]
  omega

theorem weekday_dayStart (n : ℤ) :
    (dayStart offset n).weekday (.fixed offset) = Civil.weekdayOf n := by
  unfold weekday
  rw [epochDay_dayStart]

theorem dayStart_add (n k : ℤ) : (dayStart offset n).add (days k) = dayStart offset (n + k) := by
  simp only [dayStart, add, days, DateTime.mk.injEq, and_true]
  ring

/-- A midnight is after a local value exactly when its day is. -/
theorem isAfter_dayStart (n : ℤ) (t : DateTime) (ht : t.isUtc = false) :
    (dayStart offset n).isAfter t = decide (t.epochDay (.fixed offset) < n) := by
  unfold isAfter epochDay
  rw [wallClock_fixed offset t ht, decide_eq_decide]
  simp only [dayStart, days, microsecondsPerDay]
  omega

/-- A local value is before a midnight exactly when its day is. -/
theorem isBefore_dayStart (n : ℤ) (t : DateTime) (ht : t.isUtc = false) :
    t.isBefore (dayStart offset n) = decide (t.epochDay (.fixed offset) < n) :=
  isAfter_dayStart offset n t ht

/-- `DateTime(y, m, d)` is a midnight. -/
theorem ofDate_fixed (y m d : ℤ) :
    ofDate (.fixed offset) y m d = dayStart offset (Civil.dayNumber y m d) := by
  simp only [ofDate, ofFields, Zone.fixed, dayStart, zero_mul, add_zero]

/-- `DateTime(y, m, d, h, mi)` shows what it was made of. -/
theorem wallClock_ofFields (y m d h mi : ℤ) :
    (ofFields (.fixed offset) y m d h mi).wallClock (.fixed offset)
      = days (Civil.dayNumber y m d) + h * microsecondsPerHour + mi * microsecondsPerMinute := by
  rw [wallClock_fixed offset _ rfl]
  simp only [ofFields, Zone.fixed, sub_add_cancel]

theorem wallClock_dayStart (n : ℤ) :
    (dayStart offset n).wallClock (.fixed offset) = days n := by
  rw [wallClock_fixed offset _ rfl]
  simp only [dayStart, sub_add_cancel]

/-- `DateTime(t.year, t.month, t.day, h, mi)` lies on the day of `t`. -/
theorem epochDay_ofFields (t : DateTime) {h mi : ℤ} (hh : 0 ≤ h ∧ h < 24) (hm : 0 ≤ mi ∧ mi < 60) :
    (ofFields (.fixed offset) (t.year (.fixed offset)) (t.month (.fixed offset))
      (t.day (.fixed offset)) h mi).epochDay (.fixed offset) = t.epochDay (.fixed offset) := by
  have hciv := Civil.dayNumber_civil (t.epochDay (.fixed offset))
  unfold year month day
  generalize t.epochDay (.fixed offset) = n at *
  unfold epochDay
  rw [wallClock_fixed offset _ rfl]
  simp only [ofFields, Zone.fixed, hciv, days, microsecondsPerDay, microsecondsPerHour,
    microsecondsPerMinute]
  omega

/-- Cutting a value to milliseconds keeps its calendar day. -/
theorem epochDay_ofMillis (t : DateTime) (ht : t.isUtc = false)
    (hpos : 0 ≤ t.microsecondsSinceEpoch) :
    (ofMillis t.millisecondsSinceEpoch).epochDay (.fixed offset)
      = t.epochDay (.fixed offset) :=
  Lasting.epochDay ⟨ht, .inl hpos⟩ (Zone.fixed_byMillis offset)

/-- A midnight is a whole number of milliseconds. -/
theorem ofMillis_dayStart (n : ℤ) :
    ofMillis (dayStart offset n).millisecondsSinceEpoch = dayStart offset n := by
  simp only [ofMillis, millisecondsSinceEpoch, dayStart, days, microsecondsPerMillisecond,
    microsecondsPerSecond, microsecondsPerDay, DateTime.mk.injEq, and_true]
  -- days and offsets are whole seconds
  obtain ⟨k, hk⟩ : (1000 : ℤ) ∣ n * 86400000000 - offset.seconds * 1000000 :=
    ⟨n * 86400000 - offset.seconds * 1000, by ring⟩
  rw [hk, Int.mul_tdiv_cancel_left k (by norm_num), mul_comm]

end Fixed

end DateTime

/-! ## The midnights of a zone -/

/-- The offset the midnight of day `n` has: how far its instant is from the
midnight of that day in UTC. -/
def Zone.midnightOffset (z : Zone) (n : ℤ) : ℤ := days n - z.instantOf (days n)

/-- Two midnights are their days apart, but for what their offsets differ by. -/
theorem DateTime.difference_midnight (z : Zone) (t u : DateTime) :
    (u.midnight z).difference (t.midnight z)
      = days (u.epochDay z - t.epochDay z)
        + (z.midnightOffset (t.epochDay z) - z.midnightOffset (u.epochDay z)) := by
  rw [DateTime.midnight_eq, DateTime.midnight_eq]
  simp only [DateTime.difference, Zone.midnightOffset, days]
  ring

/-- A local value whose clock shows the midnight of day `n`. -/
structure DateTime.IsMidnight (t : DateTime) (z : Zone) (n : ℤ) : Prop where
  isUtc : t.isUtc = false
  wallClock : t.wallClock z = days n

/-- Where the clock shows midnight, its offset is the zone's there. -/
theorem DateTime.IsMidnight.midnightOffset_eq {z : Zone} {n : ℤ}
    (h : DateTime.IsMidnight ⟨z.instantOf (days n), false⟩ z n) :
    z.midnightOffset n = (z.offsetAt (z.instantOf (days n))).seconds * microsecondsPerSecond :=
  sub_eq_of_eq_add' h.wallClock.symm

theorem DateTime.isMidnight_dayStart (offset : UtcOffset) (n : ℤ) :
    (dayStart offset n).IsMidnight (.fixed offset) n :=
  ⟨rfl, wallClock_dayStart offset n⟩

/-- The offsets of a zone are less than a day apart. -/
def Zone.OffsetsNear (z : Zone) : Prop :=
  ∀ x y, (z.offsetAt x).seconds - (z.offsetAt y).seconds < 86400

/-! ## A zone whose clock does not go back -/

/-- The midnights of a zone come in the order of their days, and the clock times
of 1 January 1970 in theirs. -/
structure Zone.InOrder (z : Zone) : Prop where
  midnights : ∀ m n, m < n → z.instantOf (days m) < z.instantOf (days n)
  clock : ∀ w w', 0 ≤ w → w < w' → w' < microsecondsPerDay → z.instantOf w < z.instantOf w'

theorem Zone.InOrder.midnights_le_iff {z : Zone} (hz : z.InOrder) {m n : ℤ} :
    z.instantOf (days m) ≤ z.instantOf (days n) ↔ m ≤ n := by
  have hmono : StrictMono fun n => z.instantOf (days n) := fun m n => hz.midnights m n
  exact hmono.le_iff_le

theorem Zone.InOrder.clock_le_iff {z : Zone} (hz : z.InOrder) {w w' : ℤ}
    (hw : 0 ≤ w ∧ w < microsecondsPerDay) (hw' : 0 ≤ w' ∧ w' < microsecondsPerDay) :
    z.instantOf w ≤ z.instantOf w' ↔ w ≤ w' := by
  have hmono : StrictMonoOn z.instantOf {w | 0 ≤ w ∧ w < microsecondsPerDay} :=
    fun w hw w' hw' hlt => hz.clock w w' hw.1 hlt hw'.2
  exact hmono.le_iff_le hw hw'

theorem Zone.InOrder.fixed (offset : UtcOffset) : (Zone.fixed offset).InOrder where
  midnights m n h := by
    simp only [Zone.fixed, days, microsecondsPerDay]
    omega
  clock _ _ _ h _ := Int.sub_lt_sub_right h _

/-! ## A zone whose offset stays for a while -/

/-- From the instant `lo` to the instant `hi` a zone has one offset, and resolves
the wall clocks of that time by it. -/
structure Zone.SteadyOn (z : Zone) (offset : UtcOffset) (lo hi : ℤ) : Prop where
  offsetAt : ∀ x, lo ≤ x → x ≤ hi → z.offsetAt x = offset
  instantOf : ∀ x, lo ≤ x → x ≤ hi →
    z.instantOf (x + offset.seconds * microsecondsPerSecond) = x

namespace Zone.SteadyOn

variable {z : Zone} {offset : UtcOffset} {lo hi : ℤ}

theorem wallClock (h : z.SteadyOn offset lo hi) {t : DateTime} (ht : t.isUtc = false)
    (hlo : lo ≤ t.microsecondsSinceEpoch) (hhi : t.microsecondsSinceEpoch ≤ hi) :
    t.wallClock z = t.microsecondsSinceEpoch + offset.seconds * microsecondsPerSecond := by
  unfold DateTime.wallClock
  rw [ht, h.offsetAt _ hlo hhi]
  rfl

/-- A wall clock of that time, resolved. -/
theorem instantOf_wall (h : z.SteadyOn offset lo hi) {w : ℤ}
    (hlo : lo ≤ w - offset.seconds * microsecondsPerSecond)
    (hhi : w - offset.seconds * microsecondsPerSecond ≤ hi) :
    z.instantOf w = w - offset.seconds * microsecondsPerSecond := by
  have hw := h.instantOf _ hlo hhi
  rwa [sub_add_cancel] at hw

/-- A shorter time. -/
theorem mono (h : z.SteadyOn offset lo hi) {lo' hi' : ℤ} (hlo : lo ≤ lo') (hhi : hi' ≤ hi) :
    z.SteadyOn offset lo' hi' where
  offsetAt x hx hx' := h.offsetAt x (hlo.trans hx) (hx'.trans hhi)
  instantOf x hx hx' := h.instantOf x (hlo.trans hx) (hx'.trans hhi)

/-- A local value of that time lies on the day it has under the one offset. -/
theorem epochDay (h : z.SteadyOn offset lo hi) {t : DateTime} (ht : t.isUtc = false)
    (hlo : lo ≤ t.microsecondsSinceEpoch) (hhi : t.microsecondsSinceEpoch ≤ hi) :
    t.epochDay z = t.epochDay (.fixed offset) := by
  unfold DateTime.epochDay
  rw [h.wallClock ht hlo hhi, DateTime.wallClock_fixed offset t ht]

/-- A midnight of that time is the one it is under the one offset. -/
theorem instantOf_dayStart (h : z.SteadyOn offset lo hi) {n : ℤ}
    (hlo : lo ≤ (DateTime.dayStart offset n).microsecondsSinceEpoch)
    (hhi : (DateTime.dayStart offset n).microsecondsSinceEpoch ≤ hi) :
    (⟨z.instantOf (days n), false⟩ : DateTime) = DateTime.dayStart offset n :=
  congrArg (DateTime.mk · false) (h.instantOf_wall hlo hhi)

theorem fixed (offset : UtcOffset) (lo hi : ℤ) : (Zone.fixed offset).SteadyOn offset lo hi where
  offsetAt _ _ _ := rfl
  instantOf _ _ _ := add_sub_cancel_right ..

end Zone.SteadyOn

end Dart
