/-
Zones that change their offset: the search for the next date.

`findNextTime` adds days of 24 hours to a local midnight. Where the clock has
gone back on the way, the value it reaches is in the evening of the day before,
so the search reads a weekday that is one behind, and may end on the day it
started from (`not_keptDays`).

The search walks places: the place of day `n` is the start moved on by the days
to `n`, and it shows `n` or, where the clock is behind, `n - 1`. Over places the
loops are the lagging searches of `Lib/Lagging.lean`, so where they stop is known
from the offsets at a few places. `OffsetsKeep` is what these have to be for the
day found to be the one a zone of constant offset finds (`keptDays_iff`).
-/
import AquaFocus.Daylight
import AquaFocus.Lib.Lagging

set_option autoImplicit false

open Dart Loop

namespace AquaFocus.DaylightSearch

open AquaFocus.Reschedule AquaFocus.Daylight

/-! ## Places -/

/-- The midnight `t` of day `b`, moved on by the days from `b` to `n`. -/
def place (t : DateTime) (b n : ℤ) : DateTime := t.add (days (n - b))

/-- The clock is behind at the place of day `n`: it has gone back since `t`. -/
def Behind (z : Zone) (t : DateTime) (b n : ℤ) : Prop :=
  (z.offsetAt (place t b n).microsecondsSinceEpoch).seconds
    < (z.offsetAt t.microsecondsSinceEpoch).seconds

instance (z : Zone) (t : DateTime) (b : ℤ) : DecidablePred (Behind z t b) :=
  fun _ => Int.decLt _ _

/-- The day the place of day `n` shows. -/
def shownDay (z : Zone) (t : DateTime) (b n : ℤ) : ℤ := if Behind z t b n then n - 1 else n

/-- The first place after the midnight `u` of day `e`: that of `e` itself where the
offset at `u` is the greater one. -/
def firstPast (z : Zone) (t u : DateTime) (e : ℤ) : ℤ :=
  if (z.offsetAt t.microsecondsSinceEpoch).seconds < (z.offsetAt u.microsecondsSinceEpoch).seconds
  then e else e + 1

section Places

variable {z : Zone} {t u : DateTime} {b e : ℤ}

theorem place_self (t : DateTime) (b : ℤ) : place t b b = t := by
  simp only [place, DateTime.add, days, sub_self, zero_mul, add_zero]

theorem place_add (t : DateTime) (b n k : ℤ) :
    (place t b n).add (days k) = place t b (n + k) := by
  simp only [place, DateTime.add, days, DateTime.mk.injEq, and_true]
  ring

theorem not_behind_self (z : Zone) (t : DateTime) (b : ℤ) : ¬ Behind z t b b := by
  unfold Behind
  rw [place_self]
  exact lt_irrefl _

theorem epochDay_place (hz : z.OffsetsNear) (ht : t.IsMidnight z b) (n : ℤ) :
    (place t b n).epochDay z = shownDay z t b n := by
  have hlo := hz (place t b n).microsecondsSinceEpoch t.microsecondsSinceEpoch
  have hhi := hz t.microsecondsSinceEpoch (place t b n).microsecondsSinceEpoch
  -- the clock at the place, from the clock at the start
  have hwall : (place t b n).wallClock z = days n
      + ((z.offsetAt (place t b n).microsecondsSinceEpoch).seconds
        - (z.offsetAt t.microsecondsSinceEpoch).seconds) * microsecondsPerSecond := by
    have hstart := ht.wallClock
    have hutc : (place t b n).isUtc = false := ht.isUtc
    unfold DateTime.wallClock at *
    rw [ht.isUtc] at hstart
    rw [hutc]
    simp only [Bool.false_eq_true, if_false, place, DateTime.add, days, microsecondsPerDay,
      microsecondsPerSecond] at *
    omega
  unfold DateTime.epochDay shownDay
  rw [hwall]
  by_cases h : Behind z t b n
  · rw [if_pos h]
    unfold Behind at h
    simp only [days, microsecondsPerDay, microsecondsPerSecond]
    omega
  · rw [if_neg h]
    unfold Behind at h
    simp only [days, microsecondsPerDay, microsecondsPerSecond]
    omega

/-- The exit test, over places. -/
theorem isAfter_place (hz : z.OffsetsNear) (ht : t.IsMidnight z b) (hu : u.IsMidnight z e)
    (n : ℤ) : (!(place t b n).isAfter u) = decide (n < firstPast z t u e) := by
  have htw := ht.wallClock
  have huw := hu.wallClock
  have hlo := hz t.microsecondsSinceEpoch u.microsecondsSinceEpoch
  have hhi := hz u.microsecondsSinceEpoch t.microsecondsSinceEpoch
  unfold DateTime.wallClock at htw huw
  rw [ht.isUtc] at htw
  rw [hu.isUtc] at huw
  unfold DateTime.isAfter place firstPast
  rw [← decide_not, decide_eq_decide]
  simp only [Bool.false_eq_true, if_false, DateTime.add, days, microsecondsPerDay,
    microsecondsPerSecond] at *
  by_cases h : (z.offsetAt t.microsecondsSinceEpoch).seconds
      < (z.offsetAt u.microsecondsSinceEpoch).seconds
  · rw [if_pos h]
    omega
  · rw [if_neg h]
    omega

end Places

/-! ## The rules, by day numbers -/

/-- The days a rule moves on to from day `n`. -/
def dayStep : Repeat → ℤ → ℤ
  | .weekdays => weekdayStep
  | .weekends => weekendStep
  | .weekly => fun n => n + 7
  | .daily | .monthly | .never => fun n => n + 1

/-- The last day up to `n` that a rule admits. -/
def lastAdmitted : Repeat → ℤ → ℤ
  | .weekdays => fun n => n - max 0 (Civil.weekdayOf n - 5)
  | .weekends => fun n => if Civil.weekdayOf n < 6 then n - Civil.weekdayOf n else n
  | .daily | .weekly | .monthly | .never => fun n => n

/-- The next date after day `a` of a task dated `d`, by the calendar. -/
def nextDay (r : Repeat) (a d : ℤ) : ℤ :=
  match r with
  | .weekly => d + 7 * max 1 ((a - d) / 7 + 1)
  | r => dayStep r (max a d)

theorem nextDay_of_day {r : Repeat} (hr : r ∈ [Repeat.daily, .weekdays, .weekends]) (a d : ℤ) :
    nextDay r a d = dayStep r (max a d) := by
  cases r with
  | daily | weekdays | weekends => rfl
  | never | weekly | monthly => exact absurd hr (by decide)

theorem isNext_dayStep {r : Repeat} (hr : r ∈ [Repeat.daily, .weekdays, .weekends]) (n : ℤ) :
    IsNext {m | Admits r m} n (dayStep r n) := by
  cases r with
  | daily => exact isNext_dailyStep n
  | weekdays => exact isNext_weekdayStep n
  | weekends => exact isNext_weekendStep n
  | never | weekly | monthly => exact absurd hr (by decide)

/-- After the days a rule does not admit come two that it does. -/
theorem admits_pair {r : Repeat} (hr : r ∈ [Repeat.daily, .weekdays, .weekends]) (n : ℤ)
    (hn : ¬ Admits r n) : Admits r (dayStep r n + 1) := by
  cases r with
  | daily => exact trivial
  | weekdays =>
      have hwd : ¬ Civil.weekdayOf n ≤ 5 := hn
      have hstep : dayStep .weekdays n = n + (1 - Civil.weekdayOf n) % 7 :=
        if_pos (show 5 ≤ Civil.weekdayOf n by omega)
      rw [hstep]
      simp only [Admits, Civil.weekdayOf] at *
      omega
  | weekends =>
      have hwd : ¬ 6 ≤ Civil.weekdayOf n := hn
      have hstep : dayStep .weekends n = n + (6 - Civil.weekdayOf n) % 7 :=
        if_pos (show Civil.weekdayOf n ≠ 6 by omega)
      rw [hstep]
      simp only [Admits, Civil.weekdayOf] at *
      omega
  | never | weekly | monthly => exact absurd hr (by decide)

theorem isGreatest_lastAdmitted {r : Repeat} (hr : r ∈ [Repeat.daily, .weekdays, .weekends])
    (n : ℤ) : IsGreatest {m | m ∈ {m | Admits r m} ∧ m < n + 1} (lastAdmitted r n) := by
  have hself : Admits r n → lastAdmitted r n = n → IsGreatest
      {m | m ∈ {m | Admits r m} ∧ m < n + 1} (lastAdmitted r n) := by
    intro hadmits heq
    rw [heq]
    exact ⟨⟨hadmits, Int.lt_succ n⟩, fun m hm => Int.lt_add_one_iff.mp hm.2⟩
  cases r with
  | daily => exact hself trivial rfl
  | weekdays =>
      refine ⟨⟨show Civil.weekdayOf _ ≤ 5 from ?_, ?_⟩, fun m hm => ?_⟩
      · simp only [lastAdmitted, Civil.weekdayOf]
        omega
      · simp only [lastAdmitted]
        omega
      · have hadmits : Civil.weekdayOf m ≤ 5 := hm.1
        have hle : m < n + 1 := hm.2
        simp only [lastAdmitted, Civil.weekdayOf] at *
        omega
  | weekends =>
      by_cases h : Civil.weekdayOf n < 6
      · -- from Monday to Friday it is the Sunday before
        have heq : lastAdmitted .weekends n = n - Civil.weekdayOf n := if_pos h
        rw [heq]
        refine ⟨⟨show 6 ≤ Civil.weekdayOf _ from ?_, ?_⟩, fun m hm => ?_⟩
        · simp only [Civil.weekdayOf] at *
          omega
        · simp only [Civil.weekdayOf]
          omega
        · have hadmits : 6 ≤ Civil.weekdayOf m := hm.1
          have hle : m < n + 1 := hm.2
          simp only [Civil.weekdayOf] at *
          omega
      · exact hself (not_lt.mp h) (if_neg h)
  | never | weekly | monthly => exact absurd hr (by decide)

/-! ## The loops, over places -/

/-- Every rule but the month rules adds days, as many as the day it reads is away
from the next. -/
theorem loopStep_eq_add {r : Repeat} (hr : r.periodic = true) (z : Zone) (t : DateTime) :
    loopStep z r t = t.add (days (dayStep r (t.epochDay z) - t.epochDay z)) := by
  cases r with
  | never => exact absurd hr (by decide)
  | monthly => exact absurd hr (by decide)
  | daily => rw [dayStep, add_sub_cancel_left, loopStep]
  | weekly => rw [dayStep, add_sub_cancel_left, loopStep]
  | weekdays =>
      change nextWeekday z t = t.add (days (weekdayStep (t.epochDay z) - t.epochDay z))
      unfold nextWeekday next weekdayStep DateTime.weekday
      by_cases h : 5 ≤ Civil.weekdayOf (t.epochDay z)
      · rw [if_pos h, if_pos h, add_sub_cancel_left]
      · rw [if_neg h, if_neg h, add_sub_cancel_left]
  | weekends =>
      change nextWeekend z t = t.add (days (weekendStep (t.epochDay z) - t.epochDay z))
      unfold nextWeekend next weekendStep DateTime.weekday
      by_cases h : Civil.weekdayOf (t.epochDay z) ≠ 6
      · rw [if_pos h, if_pos h, add_sub_cancel_left]
      · rw [if_neg h, if_neg h, add_sub_cancel_left]

theorem loopStep_place {z : Zone} (hz : z.OffsetsNear) {t : DateTime} {b : ℤ}
    (ht : t.IsMidnight z b) {r : Repeat} (hr : r.periodic = true) (n : ℤ) :
    loopStep z r (place t b n) = place t b (lagStep (dayStep r) (Behind z t b) n) := by
  rw [loopStep_eq_add hr, epochDay_place hz ht, place_add]
  congr 1
  unfold shownDay lagStep
  by_cases h : Behind z t b n
  · rw [if_pos h, if_pos h]
    ring
  · rw [if_neg h, if_neg h]
    ring

/-- The loop of `findNextTime` is a lagging search for the first place past its bound. -/
theorem nextDate_place {z : Zone} (hz : z.OffsetsNear) {c : Clock} {task : AppTask}
    (hr : task.repeats.periodic = true) {b e : ℤ} (ht : (loopFrom c task).IsMidnight z b)
    (hu : (loopBound c task).IsMidnight z e) :
    ∃ (fuel : ℕ) (q : ℤ),
      whileLoop (fun q => decide (q < firstPast z (loopFrom c task) (loopBound c task) e))
          (lagStep (dayStep task.repeats) (Behind z (loopFrom c task) b)) fuel
          (lagStep (dayStep task.repeats) (Behind z (loopFrom c task) b) b) = some q
        ∧ nextDate z c task = some (place (loopFrom c task) b q) := by
  have hstart : loopStep z task.repeats (loopFrom c task) = place (loopFrom c task) b
      (lagStep (dayStep task.repeats) (Behind z (loopFrom c task) b) b) := by
    rw [← loopStep_place hz ht hr, place_self]
  obtain ⟨t, hend, -⟩ := nextDate_ends z c task
  have hrun := hend
  rw [nextDate_eq, hstart, whileLoop_map (place (loopFrom c task) b) (isAfter_place hz ht hu)
    (loopStep_place hz ht hr)] at hrun
  obtain ⟨q, hq, rfl⟩ := Option.map_eq_some_iff.mp hrun
  exact ⟨_, q, hq, hend⟩

/-! ## Where they stop -/

/-- The day a rule's loop starts from, of the day `a` of `nowDate` and the day `d` of
the task. -/
def fromDay (r : Repeat) (a d : ℤ) : ℤ :=
  match r with
  | .weekly => d
  | _ => a

/-- The place the loop stops at. The weekly one goes past `nowDate` in whole weeks.
The others go past the task's date: from the last admitted day before that to the
next one, unless the clock is behind at the former (`LagStop`). -/
def Stops (z : Zone) (c : Clock) (task : AppTask) (a d q : ℤ) : Prop :=
  match task.repeats with
  | .weekly => q = nextDay .weekly (firstPast z task.date c.nowDate a - 1) d
  | r => LagStop (dayStep r) (Behind z c.nowDate a) a (firstPast z c.nowDate task.date d)
      (lastAdmitted r (max a (firstPast z c.nowDate task.date d - 1))) q

/-- The rules that add days are the three day rules and the weekly one. -/
theorem periodic_cases {r : Repeat} (hr : r.periodic = true) :
    r ∈ [Repeat.daily, .weekdays, .weekends] ∨ r = .weekly := by
  revert hr
  cases r <;> decide

theorem periodic_of_day {r : Repeat} (hr : r ∈ [Repeat.daily, .weekdays, .weekends]) :
    r.periodic = true := by
  revert hr
  cases r <;> decide

section Stop

variable {z : Zone} {c : Clock} {task : AppTask} {a d : ℤ}

/-- On its way the weekly loop is whole weeks after the task's day, and not past the
first such day that is not before `Q`. -/
def InWeeks (d Q n : ℤ) : Prop := 7 ∣ n - d ∧ d < n ∧ n ≤ nextDay .weekly (Q - 1) d

theorem weekly_stop {lag : ℤ → Prop} [DecidablePred lag] {Q : ℤ} {fuel : ℕ} {q : ℤ}
    (h : whileLoop (fun q => decide (q < Q)) (lagStep (fun n => n + 7) lag) fuel
      (lagStep (fun n => n + 7) lag d) = some q) : q = nextDay .weekly (Q - 1) d := by
  have hstep : ∀ n, lagStep (fun n => n + 7) lag n = n + 7 := by
    intro n
    unfold lagStep
    split
    · ring
    · rfl
  have hkeep : ∀ n, InWeeks d Q n → decide (n < Q) = true →
      InWeeks d Q (lagStep (fun n => n + 7) lag n) := by
    intro n hn hnQ
    rw [decide_eq_true_eq] at hnQ
    simp only [hstep, InWeeks, nextDay] at *
    omega
  have hstart : InWeeks d Q (lagStep (fun n => n + 7) lag d) := by
    simp only [hstep, InWeeks, nextDay]
    omega
  obtain ⟨hweeks, hend⟩ := whileLoop_invariant (InWeeks d Q) hkeep hstart h
  rw [decide_eq_false_iff_not] at hend
  simp only [InWeeks, nextDay] at *
  omega

/-- The day rules start from `nowDate` and go past the task's date. -/
theorem day_rule (hr : task.repeats ∈ [Repeat.daily, .weekdays, .weekends]) :
    loopFrom c task = c.nowDate ∧ loopBound c task = task.date ∧ fromDay task.repeats a d = a
      ∧ ∀ q, Stops z c task a d q
        ↔ LagStop (dayStep task.repeats) (Behind z c.nowDate a) a
          (firstPast z c.nowDate task.date d)
          (lastAdmitted task.repeats (max a (firstPast z c.nowDate task.date d - 1))) q := by
  unfold loopFrom loopBound fromDay Stops
  generalize task.repeats = r at hr
  cases r with
  | daily | weekdays | weekends => exact ⟨rfl, rfl, rfl, fun q => Iff.rfl⟩
  | never | weekly | monthly => exact absurd hr (by decide)

/-- The weekly rule starts from the task's date and goes past `nowDate`. -/
theorem week_rule (hr : task.repeats = .weekly) :
    loopFrom c task = task.date ∧ loopBound c task = c.nowDate ∧ fromDay task.repeats a d = d
      ∧ ∀ q, Stops z c task a d q
        ↔ q = nextDay .weekly (firstPast z task.date c.nowDate a - 1) d := by
  unfold loopFrom loopBound fromDay Stops
  rw [hr]
  exact ⟨rfl, rfl, rfl, fun q => Iff.rfl⟩

theorem nextDate_stops (hz : z.OffsetsNear) (hr : task.repeats.periodic = true)
    (hnow : c.nowDate.IsMidnight z a) (hdate : task.date.IsMidnight z d) :
    ∃ q, nextDate z c task = some (place (loopFrom c task) (fromDay task.repeats a d) q)
      ∧ Stops z c task a d q := by
  rcases periodic_cases hr with hday | hweek
  · obtain ⟨hfrom, hbound, hbase, hstops⟩ := day_rule (z := z) (c := c) (a := a) (d := d) hday
    obtain ⟨fuel, q, hq, hend⟩ := nextDate_place hz hr (hfrom ▸ hnow) (hbound ▸ hdate)
    rw [hfrom, hbound] at hq
    have hgreatest := isGreatest_lastAdmitted hday
      (max a (firstPast z c.nowDate task.date d - 1))
    rw [show max a (firstPast z c.nowDate task.date d - 1) + 1
      = max (a + 1) (firstPast z c.nowDate task.date d) by omega] at hgreatest
    rw [hbase]
    exact ⟨q, hend, (hstops q).mpr (whileLoop_lagStep (isNext_dayStep hday) (admits_pair hday)
      (not_behind_self z c.nowDate a) hgreatest hq)⟩
  · obtain ⟨hfrom, hbound, hbase, hstops⟩ := week_rule (z := z) (c := c) (a := a) (d := d) hweek
    obtain ⟨fuel, q, hq, hend⟩ := nextDate_place hz hr (hfrom ▸ hdate) (hbound ▸ hnow)
    rw [hfrom, hbound, hweek] at hq
    rw [hbase]
    exact ⟨q, hend, (hstops q).mpr (weekly_stop hq)⟩

/-- There is one place to stop at. -/
theorem Stops.unique {q q' : ℤ} (hr : task.repeats.periodic = true)
    (h : Stops z c task a d q) (h' : Stops z c task a d q') : q = q' := by
  rcases periodic_cases hr with hday | hweek
  · have hstops := (day_rule (z := z) (c := c) (a := a) (d := d) hday).2.2.2
    exact ((hstops q).mp h).unique ((hstops q').mp h')
  · have hstops := (week_rule (z := z) (c := c) (a := a) (d := d) hweek).2.2.2
    rw [(hstops q).mp h, (hstops q').mp h']

theorem dayStep_lastAdmitted {r : Repeat} (hr : r ∈ [Repeat.daily, .weekdays, .weekends])
    (n : ℤ) : dayStep r (lastAdmitted r n) = dayStep r n := by
  obtain ⟨⟨-, hle⟩, hmax⟩ := isGreatest_lastAdmitted hr n
  refine (IsNext.eq_of_notMem (isNext_dayStep hr) (Int.lt_add_one_iff.mp hle) ?_).symm
  intro m hlt hmn hm
  exact absurd (hmax ⟨hm, Int.lt_add_one_iff.mpr hmn⟩) (not_le.mpr hlt)

/-- In a zone of constant offset they stop at the next date by the calendar. -/
theorem Stops.fixed {offset : UtcOffset} {q : ℤ} (hr : task.repeats.periodic = true)
    (h : Stops (.fixed offset) c task a d q) : q = nextDay task.repeats a d := by
  have hpast : ∀ (t u : DateTime) (e : ℤ), firstPast (.fixed offset) t u e = e + 1 :=
    fun t u e => if_neg (lt_irrefl _)
  rcases periodic_cases hr with hday | hweek
  · have hstop := ((day_rule hday).2.2.2 q).mp h
    rw [hpast, add_sub_cancel_right] at hstop
    rw [hstop.eq_of_not_lag (fun n => lt_irrefl _), dayStep_lastAdmitted hday,
      nextDay_of_day hday]
  · rw [((week_rule hweek).2.2.2 q).mp h, hpast, add_sub_cancel_right, hweek]

theorem lt_nextDay {r : Repeat} (hr : r.periodic = true) (a d : ℤ) :
    a < nextDay r a d ∧ d < nextDay r a d := by
  rcases periodic_cases hr with hday | rfl
  · have hlt := (isNext_dayStep hday (max a d)).lt
    rw [nextDay_of_day hday]
    exact max_lt_iff.mp hlt
  · simp only [nextDay]
    omega

end Stop

/-! ## The time of day -/

/-- The day a date is on when the task's time of day is set: that of
`DateTime(y, m, d, h, mi)` for the fields of day `n`. -/
def placedDay (z : Zone) (task : AppTask) (n : ℤ) : ℤ :=
  match task.hasTime, task.time with
  | true, some time =>
      (DateTime.ofMicros (z.instantOf (days n + time.hour z * microsecondsPerHour
        + time.minute z * microsecondsPerMinute))).epochDay z
  | _, _ => n

theorem findNextTime_placed {z : Zone} {c : Clock} {task : AppTask} (h : task.WellFormed)
    {t : DateTime} (ht : nextDate z c task = some t) :
    ∃ u, findNextTime z c task = .ok u ∧ u.epochDay z = placedDay z task (t.epochDay z) := by
  unfold findNextTime placedDay
  rw [ht]
  by_cases htime : task.hasTime = true
  · obtain ⟨time, hsome⟩ := Option.isSome_iff_exists.mp (h.time_isSome htime)
    simp only [htime, hsome, if_true]
    refine ⟨_, rfl, ?_⟩
    unfold DateTime.ofFields DateTime.year DateTime.month DateTime.day
    rw [Civil.dayNumber_civil]
    rfl
  · simp only [htime, Bool.false_eq_true, if_false]
    exact ⟨t, rfl, by simp⟩

theorem placedDay_fixed (offset : UtcOffset) (task : AppTask) (n : ℤ) :
    placedDay (.fixed offset) task n = n := by
  unfold placedDay
  split
  · next time _ _ =>
    have hh := time.hour_bounds (.fixed offset)
    have hm := time.minute_bounds (.fixed offset)
    rw [DateTime.epochDay_ofMicros]
    simp only [Zone.fixed, sub_add_cancel, days, microsecondsPerDay, microsecondsPerHour,
      microsecondsPerMinute] at *
    omega
  · rfl

/-! ## The days kept -/

section Kept

variable {z : Zone} {c : Clock} {task : AppTask} {a d : ℤ}

/-- The day of `findNextTime` is the one that a zone of constant offset finds for the
same dates; it is not that of `nowDate`, nor the task's own. -/
def KeptDays (z : Zone) (c : Clock) (task : AppTask) (a d : ℤ) : Prop :=
  ∀ offset : UtcOffset, ∃ t u, findNextTime z c task = .ok t
    ∧ findNextTime (.fixed offset) (.read (.fixed offset) (.dayStart offset a))
        { task with date := .dayStart offset d } = .ok u
    ∧ t.epochDay z = u.epochDay (.fixed offset)
    ∧ t.epochDay z ≠ a ∧ t.epochDay z ≠ d

/-- The day `findNextTime` finds, from the place its loop stops at. -/
theorem findNextTime_stops (hz : z.OffsetsNear) (hr : task.repeats.periodic = true)
    (h : task.WellFormed) (hnow : c.nowDate.IsMidnight z a) (hdate : task.date.IsMidnight z d) :
    ∃ t q, findNextTime z c task = .ok t ∧ Stops z c task a d q
      ∧ t.epochDay z
        = placedDay z task (shownDay z (loopFrom c task) (fromDay task.repeats a d) q) := by
  obtain ⟨q, hend, hstops⟩ := nextDate_stops hz hr hnow hdate
  obtain ⟨t, ht, hday⟩ := findNextTime_placed h hend
  have hfrom : (loopFrom c task).IsMidnight z (fromDay task.repeats a d) := by
    rcases periodic_cases hr with hday | hweek
    · obtain ⟨hfrom, -, hbase, -⟩ := day_rule (z := z) (c := c) (a := a) (d := d) hday
      rw [hfrom, hbase]
      exact hnow
    · obtain ⟨hfrom, -, hbase, -⟩ := week_rule (z := z) (c := c) (a := a) (d := d) hweek
      rw [hfrom, hbase]
      exact hdate
  rw [epochDay_place hz hfrom] at hday
  exact ⟨t, q, ht, hstops, hday⟩

/-- In a zone of constant offset it is the next date by the calendar. -/
theorem findNextTime_fixed (offset : UtcOffset) (hr : task.repeats.periodic = true)
    (h : task.WellFormed) (a d : ℤ) :
    ∃ u, findNextTime (.fixed offset) (.read (.fixed offset) (.dayStart offset a))
        { task with date := .dayStart offset d } = .ok u
      ∧ u.epochDay (.fixed offset) = nextDay task.repeats a d := by
  have hnow : (Clock.read (.fixed offset) (.dayStart offset a)).nowDate.IsMidnight
      (.fixed offset) a := by
    change ((DateTime.dayStart offset a).midnight (.fixed offset)).IsMidnight (.fixed offset) a
    rw [DateTime.midnight_fixed, DateTime.epochDay_dayStart]
    exact DateTime.isMidnight_dayStart offset a
  have hnear : (Zone.fixed offset).OffsetsNear := fun x y => by
    rw [show ((Zone.fixed offset).offsetAt x).seconds = ((Zone.fixed offset).offsetAt y).seconds
      from rfl, sub_self]
    decide
  have hwell : { task with date := DateTime.dayStart offset d }.WellFormed :=
    ⟨h.time_isSome, h.reminder_never, h.streak_nonneg⟩
  have hrule : { task with date := DateTime.dayStart offset d }.repeats.periodic = true := hr
  obtain ⟨u, q, hu, hstops, hday⟩ := findNextTime_stops hnear hrule hwell hnow
    (DateTime.isMidnight_dayStart offset d)
  rw [placedDay_fixed, shownDay, if_neg (show ¬ Behind _ _ _ _ from lt_irrefl _),
    hstops.fixed hr] at hday
  exact ⟨u, hu, hday⟩

/-- The days are kept when the place the loop stops at, with the time of day set, is on
the next date by the calendar. -/
theorem keptDays_iff_of_stops (hz : z.OffsetsNear) (hr : task.repeats.periodic = true)
    (h : task.WellFormed) (hnow : c.nowDate.IsMidnight z a) (hdate : task.date.IsMidnight z d)
    {q : ℤ} (hq : Stops z c task a d q) :
    KeptDays z c task a d
      ↔ placedDay z task (shownDay z (loopFrom c task) (fromDay task.repeats a d) q)
        = nextDay task.repeats a d := by
  obtain ⟨t, q', ht, hq', hday⟩ := findNextTime_stops hz hr h hnow hdate
  rw [hq'.unique hr hq] at hday
  rw [← hday]
  constructor
  · intro hkept
    obtain ⟨t', u, ht', hu, heq, -⟩ := hkept .utc
    obtain ⟨u', hu', hday'⟩ := findNextTime_fixed .utc hr h a d
    rw [ht, Except.ok.injEq] at ht'
    rw [hu, Except.ok.injEq] at hu'
    rw [ht', heq, hu', hday']
  · intro heq offset
    obtain ⟨u, hu, hday'⟩ := findNextTime_fixed offset hr h a d
    obtain ⟨hna, hnd⟩ := lt_nextDay hr a d
    exact ⟨t, u, ht, hu, by rw [heq, hday'], by rw [heq]; exact hna.ne', by rw [heq]; exact hnd.ne'⟩

/-- The clock is behind on the rule's last day `p` before the task's, and on the day
after it. -/
def BehindTwice (z : Zone) (c : Clock) (a p : ℤ) : Prop :=
  a < p ∧ Behind z c.nowDate a p ∧ Behind z c.nowDate a (p + 1)

/-- The offset at the task's date is greater than at `nowDate`. -/
def AheadAt (z : Zone) (c : Clock) (task : AppTask) : Prop :=
  (z.offsetAt c.nowDate.microsecondsSinceEpoch).seconds
    < (z.offsetAt task.date.microsecondsSinceEpoch).seconds

/-- What the offsets have to be for the loop to end on the next date `R` by the
calendar, with `p` for the rule's last day before the task's. -/
def OffsetsKeep (z : Zone) (c : Clock) (task : AppTask) (a d : ℤ) : Prop :=
  let R := nextDay task.repeats a d
  let p := lastAdmitted task.repeats (d - 1)
  match task.repeats with
  | .weekly =>
      ¬ Behind z task.date d R
        ∧ (d < a → 7 ∣ a - d → ¬ (z.offsetAt task.date.microsecondsSinceEpoch).seconds
          < (z.offsetAt c.nowDate.microsecondsSinceEpoch).seconds)
  | r =>
      (d ≤ a → ¬ Behind z c.nowDate a R)
        ∧ (a < d → Admits r d → ¬ AheadAt z c task →
          ¬ Behind z c.nowDate a R ∧ (Behind z c.nowDate a d → R = d + 1))
        -- two errors that cancel out
        ∧ (a < d → Admits r d → AheadAt z c task →
          BehindTwice z c a p ∧ p + 1 < d ∧ R = d + 1 ∧ ¬ Behind z c.nowDate a R)
        ∧ (a < d → ¬ Admits r d →
          ¬ (AheadAt z c task ∧ a < p ∧ p + 1 = d ∧ Behind z c.nowDate a p)
            ∧ (BehindTwice z c a p → Behind z c.nowDate a (R + 1))
            ∧ (¬ BehindTwice z c a p → ¬ Behind z c.nowDate a R))

theorem shownDay_eq_iff {t : DateTime} {b q n : ℤ} :
    shownDay z t b q = n ↔ q = n ∧ ¬ Behind z t b n ∨ q = n + 1 ∧ Behind z t b (n + 1) := by
  unfold shownDay
  by_cases h : Behind z t b q
  · rw [if_pos h]
    constructor
    · intro hq
      have hqn : q = n + 1 := by omega
      exact .inr ⟨hqn, hqn ▸ h⟩
    · rintro (⟨rfl, hnot⟩ | ⟨rfl, -⟩)
      · exact absurd h hnot
      · omega
  · rw [if_neg h]
    constructor
    · intro hq
      exact .inl ⟨hq, hq ▸ h⟩
    · rintro (⟨rfl, -⟩ | ⟨rfl, hbehind⟩)
      · rfl
      · exact absurd hbehind h

theorem shown_weekly_iff (hr : task.repeats = .weekly) {q : ℤ} (hq : Stops z c task a d q) :
    shownDay z (loopFrom c task) (fromDay task.repeats a d) q = nextDay task.repeats a d
      ↔ OffsetsKeep z c task a d := by
  obtain ⟨hfrom, -, hbase, hstops⟩ := week_rule (z := z) (c := c) (a := a) (d := d) hr
  have hplace := (hstops q).mp hq
  unfold OffsetsKeep
  rw [hfrom, hbase, shownDay_eq_iff]
  simp only [hr]
  unfold firstPast at hplace
  split at hplace
  · next hlt =>
    -- the search may stop at `a` itself, which is whole weeks after the task's day
    by_cases hweeks : d < a ∧ 7 ∣ a - d
    · have hqa : q = a := by
        simp only [nextDay] at hplace
        omega
      have hR : a + 7 = nextDay .weekly a d := by
        simp only [nextDay]
        omega
      refine iff_of_false ?_ fun h => h.2 hweeks.1 hweeks.2 hlt
      rintro (⟨h, -⟩ | ⟨h, -⟩) <;> omega
    · have hqR : q = nextDay .weekly a d := by
        simp only [nextDay] at *
        omega
      rw [hqR]
      constructor
      · rintro (⟨-, h⟩ | ⟨h, -⟩)
        · exact ⟨h, fun hda hdvd => absurd ⟨hda, hdvd⟩ hweeks⟩
        · omega
      · exact fun h => .inl ⟨rfl, h.1⟩
  · next hlt =>
    rw [add_sub_cancel_right] at hplace
    rw [hplace]
    constructor
    · rintro (⟨-, h⟩ | ⟨h, -⟩)
      · exact ⟨h, fun _ _ => hlt⟩
      · omega
    · exact fun h => .inl ⟨rfl, h.1⟩

theorem offsetsKeep_day (hr : task.repeats ∈ [Repeat.daily, .weekdays, .weekends]) :
    OffsetsKeep z c task a d
      ↔ (d ≤ a → ¬ Behind z c.nowDate a (nextDay task.repeats a d))
        ∧ (a < d → Admits task.repeats d → ¬ AheadAt z c task →
          ¬ Behind z c.nowDate a (nextDay task.repeats a d)
            ∧ (Behind z c.nowDate a d → nextDay task.repeats a d = d + 1))
        ∧ (a < d → Admits task.repeats d → AheadAt z c task →
          BehindTwice z c a (lastAdmitted task.repeats (d - 1))
            ∧ lastAdmitted task.repeats (d - 1) + 1 < d ∧ nextDay task.repeats a d = d + 1
            ∧ ¬ Behind z c.nowDate a (nextDay task.repeats a d))
        ∧ (a < d → ¬ Admits task.repeats d →
          ¬ (AheadAt z c task ∧ a < lastAdmitted task.repeats (d - 1)
              ∧ lastAdmitted task.repeats (d - 1) + 1 = d
              ∧ Behind z c.nowDate a (lastAdmitted task.repeats (d - 1)))
            ∧ (BehindTwice z c a (lastAdmitted task.repeats (d - 1)) →
              Behind z c.nowDate a (nextDay task.repeats a d + 1))
            ∧ (¬ BehindTwice z c a (lastAdmitted task.repeats (d - 1)) →
              ¬ Behind z c.nowDate a (nextDay task.repeats a d))) := by
  unfold OffsetsKeep
  generalize task.repeats = r at hr
  cases r with
  | daily | weekdays | weekends => rfl
  | never | weekly | monthly => exact absurd hr (by decide)

theorem lastAdmitted_of_not {r : Repeat} (hr : r ∈ [Repeat.daily, .weekdays, .weekends]) {n : ℤ}
    (hn : ¬ Admits r n) : lastAdmitted r n = lastAdmitted r (n - 1) := by
  have hsame : {m | m ∈ {m | Admits r m} ∧ m < n + 1}
      = {m | m ∈ {m | Admits r m} ∧ m < n - 1 + 1} := by
    ext m
    refine and_congr_right fun hm => ?_
    have hne : m ≠ n := fun heq => hn (heq ▸ hm)
    omega
  exact (hsame ▸ isGreatest_lastAdmitted hr n).unique (isGreatest_lastAdmitted hr (n - 1))

theorem shown_day_iff (hr : task.repeats ∈ [Repeat.daily, .weekdays, .weekends]) {q : ℤ}
    (hq : Stops z c task a d q) :
    shownDay z (loopFrom c task) (fromDay task.repeats a d) q = nextDay task.repeats a d
      ↔ OffsetsKeep z c task a d := by
  obtain ⟨hfrom, -, hbase, hstops⟩ := day_rule (z := z) (c := c) (a := a) (d := d) hr
  have hstop := (hstops q).mp hq
  rw [hfrom, hbase, offsetsKeep_day hr, shownDay_eq_iff]
  have hR := nextDay_of_day hr a d
  have hpast := (lt_nextDay (periodic_of_day hr) a d).2
  generalize nextDay task.repeats a d = R at *
  rcases le_or_gt d a with hda | hda
  · -- the first step is past the date already
    have hlast : max a (firstPast z c.nowDate task.date d - 1) = a := by
      unfold firstPast
      split <;> omega
    have hpa := (isGreatest_lastAdmitted hr a).1.2
    have hstep := dayStep_lastAdmitted hr a
    rw [max_eq_left hda] at hR
    rw [hlast, LagStop, hstep, ← hR] at hstop
    grind
  · rw [max_eq_right hda.le] at hR
    by_cases hahead : AheadAt z c task
    · have hfirst : firstPast z c.nowDate task.date d = d := if_pos hahead
      have hpd := (isGreatest_lastAdmitted hr (d - 1)).1.2
      have hstep := dayStep_lastAdmitted hr (d - 1)
      rw [hfirst, max_eq_right (by omega), LagStop, hstep] at hstop
      generalize lastAdmitted task.repeats (d - 1) = p at *
      have hlt := (isNext_dayStep hr (d - 1)).lt
      by_cases hd : Admits task.repeats d
      · -- the place after `p` is that of `d` itself
        have hle := (isNext_dayStep hr (d - 1)).le hd (by omega)
        rw [show dayStep task.repeats (d - 1) = d by omega] at hstop
        unfold BehindTwice
        grind
      · have hnext : dayStep task.repeats d = dayStep task.repeats (d - 1) := by
          refine IsNext.eq_of_notMem (isNext_dayStep hr) (by omega) fun x hlo hhi => ?_
          rwa [show x = d by omega]
        rw [← hnext, ← hR] at hstop
        unfold BehindTwice
        grind
    · have hfirst : firstPast z c.nowDate task.date d = d + 1 := if_neg hahead
      have hstep := dayStep_lastAdmitted hr d
      rw [hfirst, add_sub_cancel_right, max_eq_right hda.le, LagStop, hstep, ← hR] at hstop
      by_cases hd : Admits task.repeats d
      · have hself : lastAdmitted task.repeats d = d :=
          le_antisymm (Int.lt_add_one_iff.mp (isGreatest_lastAdmitted hr d).1.2)
            ((isGreatest_lastAdmitted hr d).2 ⟨hd, Int.lt_succ d⟩)
        rw [hself] at hstop
        grind
      · have hpd := (isGreatest_lastAdmitted hr (d - 1)).1.2
        rw [lastAdmitted_of_not hr hd] at hstop
        generalize lastAdmitted task.repeats (d - 1) = p at *
        unfold BehindTwice
        grind

/-- By the offsets, the loop ends on the next date by the calendar. -/
theorem shown_iff (hr : task.repeats.periodic = true) {q : ℤ} (hq : Stops z c task a d q) :
    shownDay z (loopFrom c task) (fromDay task.repeats a d) q = nextDay task.repeats a d
      ↔ OffsetsKeep z c task a d := by
  rcases periodic_cases hr with hday | hweek
  · exact shown_day_iff hday hq
  · exact shown_weekly_iff hweek hq

/-- **The days kept**: in a zone whose offsets are less than a day apart, the day of
`findNextTime` is the next date by the calendar where the offsets keep it and the
task's time of day is on that date; and only there, if setting the time of day
never changes the date, as for a task that has none. -/
theorem keptDays_iff (hz : z.OffsetsNear) (hr : task.repeats.periodic = true)
    (h : task.WellFormed) (hnow : c.nowDate.IsMidnight z a) (hdate : task.date.IsMidnight z d) :
    (OffsetsKeep z c task a d
        ∧ placedDay z task (nextDay task.repeats a d) = nextDay task.repeats a d →
      KeptDays z c task a d)
    ∧ ((∀ n, placedDay z task n = n) → (KeptDays z c task a d ↔ OffsetsKeep z c task a d)) := by
  obtain ⟨q, -, hq⟩ := nextDate_stops hz hr hnow hdate
  rw [keptDays_iff_of_stops hz hr h hnow hdate hq]
  constructor
  · rintro ⟨hkeep, hplaced⟩
    rw [(shown_iff hr hq).mpr hkeep, hplaced]
  · intro hplaced
    rw [hplaced]
    exact shown_iff hr hq

/-- A daily task of Sunday, 30 October 2022, when the clock goes back. -/
def sunday : AppTask :=
  { AppTask.fromDS "doc" (swim .daily) with date := .ofMillis 1667080800000 }

/-- Completed on that day: 24 hours after the midnight it is eleven in the evening of the
same day. -/
theorem not_keptDays :
    findNextTime centralEurope (.read centralEurope (.ofMillis 1667124000000)) sunday
        = .ok (.ofMillis 1667167200000)
      ∧ (DateTime.ofMillis 1667167200000).epochDay centralEurope = 19295
      ∧ ¬ KeptDays centralEurope (.read centralEurope (.ofMillis 1667124000000)) sunday
        19295 19295 := by
  have hresult : findNextTime centralEurope (.read centralEurope (.ofMillis 1667124000000)) sunday
      = .ok (.ofMillis 1667167200000) := by rfl
  have hday : (DateTime.ofMillis 1667167200000).epochDay centralEurope = 19295 := by decide
  refine ⟨hresult, hday, fun hkept => ?_⟩
  obtain ⟨t, u, ht, -, -, hne, -⟩ := hkept .utc
  rw [hresult, Except.ok.injEq] at ht
  exact hne (ht ▸ hday)

/-- Completed on the day after. -/
theorem keptDays_iff_monday :
    KeptDays centralEurope (.read centralEurope (.ofMillis 1667203200000)) sunday 19296 19295
      ↔ OffsetsKeep centralEurope (.read centralEurope (.ofMillis 1667203200000)) sunday
          19296 19295 := by
  have hnow : (Clock.read centralEurope (.ofMillis 1667203200000)).nowDate.IsMidnight
      centralEurope 19296 := ⟨rfl, by decide⟩
  have hdate : sunday.date.IsMidnight centralEurope 19295 := ⟨rfl, by decide⟩
  have hwell : sunday.WellFormed :=
    ⟨((swim_wellFormed .daily).read "doc").time_isSome, fun _ => rfl, le_refl 0⟩
  exact (keptDays_iff offsetsNear_centralEurope rfl hwell hnow hdate).2 fun _ => rfl

end Kept

end AquaFocus.DaylightSearch
