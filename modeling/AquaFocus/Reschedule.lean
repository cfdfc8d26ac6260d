/-
Where `findNextTime` lands, in a zone of constant offset.

A repeating task has a set of occurrences, fixed by its repeat rule and its
date; which of them is next depends on the day the clock variables were read.
`nextDate_isNext` says that the loops of `findNextTime` find the next one: the
least occurrence after `nowDate`, for every rule. The loops run over midnights
(the weekly one over instants), so each is the picture of a loop over day
numbers, and `whileLoop_isNext` does the search.

The weekly rule counts from the instant of the task's date, not from its
midnight. That is why occurrences are instants here: a weekly task dated in the
afternoon has an occurrence on `nowDate`'s own day, after `nowDate`.
-/
import AquaFocus.TaskUtils

set_option autoImplicit false

open Dart Loop

namespace AquaFocus.Reschedule

variable (offset : UtcOffset)

/-! ## Occurrences -/

/-- The days a rule admits. -/
def Admits : Repeat → ℤ → Prop
  | .weekdays, n => Civil.weekdayOf n ≤ 5
  | .weekends, n => 6 ≤ Civil.weekdayOf n
  | _, _ => True

/-- The day one month on, by the source's constructor call. -/
def monthStep (n : ℤ) : ℤ := Civil.dayNumber (Civil.yearOf n) (Civil.monthOf n + 1) (Civil.dayOf n)

/-- The instants a task falls on after its date, by its repeat rule. -/
def occurrences (task : AppTask) : Set ℤ :=
  match task.repeats with
  | .daily | .weekdays | .weekends =>
      {x | ∃ n, Admits task.repeats n ∧ task.date.epochDay (.fixed offset) < n
        ∧ x = (DateTime.dayStart offset n).microsecondsSinceEpoch}
  | .weekly => orbit (· + days 7) (task.date.microsecondsSinceEpoch + days 7)
  | .monthly | .never =>
      {x | ∃ n ∈ orbit monthStep (monthStep (task.date.epochDay (.fixed offset))),
        x = (DateTime.dayStart offset n).microsecondsSinceEpoch}

/-! ## One step over day numbers -/

def weekdayStep (n : ℤ) : ℤ :=
  if 5 ≤ Civil.weekdayOf n then n + (1 - Civil.weekdayOf n) % 7 else n + 1

def weekendStep (n : ℤ) : ℤ :=
  if Civil.weekdayOf n ≠ 6 then n + (6 - Civil.weekdayOf n) % 7 else n + 1

theorem isNext_dailyStep (n : ℤ) : IsNext {m | Admits .daily m} n (n + 1) :=
  ⟨⟨trivial, Int.lt_succ n⟩, fun _ hm => hm.2⟩

theorem isNext_weekdayStep (n : ℤ) : IsNext {m | Admits .weekdays m} n (weekdayStep n) := by
  unfold weekdayStep
  by_cases h : 5 ≤ Civil.weekdayOf n
  · rw [if_pos h]
    refine ⟨⟨show Civil.weekdayOf _ ≤ 5 from ?_, ?_⟩,
      fun m ⟨(hm : Civil.weekdayOf m ≤ 5), hnm⟩ => ?_⟩
      <;> simp only [Civil.weekdayOf] at * <;> omega
  · rw [if_neg h]
    refine ⟨⟨show Civil.weekdayOf _ ≤ 5 from ?_, Int.lt_succ n⟩, fun m hm => hm.2⟩
    simp only [Civil.weekdayOf] at *
    omega

theorem isNext_weekendStep (n : ℤ) : IsNext {m | Admits .weekends m} n (weekendStep n) := by
  unfold weekendStep
  by_cases h : Civil.weekdayOf n ≠ 6
  · rw [if_pos h]
    refine ⟨⟨show 6 ≤ Civil.weekdayOf _ from ?_, ?_⟩,
      fun m ⟨(hm : 6 ≤ Civil.weekdayOf m), hnm⟩ => ?_⟩
      <;> simp only [Civil.weekdayOf] at * <;> omega
  · rw [if_neg h]
    refine ⟨⟨show 6 ≤ Civil.weekdayOf _ from ?_, Int.lt_succ n⟩, fun m hm => hm.2⟩
    simp only [Civil.weekdayOf] at *
    omega

theorem lt_monthStep (n : ℤ) : n < monthStep n := by
  have h := Civil.dayNumber_month_succ (Civil.yearOf n) (Civil.monthOf n) (Civil.dayOf n)
  rw [Civil.dayNumber_civil] at h
  unfold monthStep
  omega

/-- A month on is 31 days on at most. -/
theorem monthStep_le (n : ℤ) : monthStep n ≤ n + 31 := by
  have hlen := (Civil.monthLength_bounds (Civil.monthIndex n)).2
  have hnext : monthStep n = Civil.monthStart (Civil.monthIndex n + 1) + (Civil.dayOf n - 1) := by
    rw [monthStep, Civil.dayNumber_eq, Civil.monthIndex]
    congr 2
    ring
  have hthis := Civil.monthStart_add_dayOf n
  unfold Civil.monthLength at hlen
  omega

/-! ## The same steps over midnights -/

theorem nextWeekday_dayStart (n : ℤ) :
    nextWeekday (.fixed offset) (DateTime.dayStart offset n)
      = DateTime.dayStart offset (weekdayStep n) := by
  unfold nextWeekday next weekdayStep
  rw [DateTime.weekday_dayStart]
  split <;> rw [DateTime.dayStart_add]

theorem nextWeekend_dayStart (n : ℤ) :
    nextWeekend (.fixed offset) (DateTime.dayStart offset n)
      = DateTime.dayStart offset (weekendStep n) := by
  unfold nextWeekend next weekendStep
  rw [DateTime.weekday_dayStart]
  split <;> rw [DateTime.dayStart_add]

theorem nextMonth_eq (t : DateTime) :
    nextMonth (.fixed offset) t
      = DateTime.dayStart offset (monthStep (t.epochDay (.fixed offset))) := by
  unfold nextMonth
  rw [DateTime.ofDate_fixed]
  rfl

theorem nextMonth_dayStart (n : ℤ) :
    nextMonth (.fixed offset) (DateTime.dayStart offset n)
      = DateTime.dayStart offset (monthStep n) := by
  rw [nextMonth_eq, DateTime.epochDay_dayStart]

/-- The rounds of a loop from a midnight: one for each day up to the bound's, and two. -/
theorem rounds_dayStart (n : ℤ) (t : DateTime) (ht : t.isUtc = false) :
    rounds (DateTime.dayStart offset n) t = (t.epochDay (.fixed offset) - n).toNat + 2 := by
  unfold rounds DateTime.difference DateTime.epochDay
  rw [DateTime.wallClock_fixed offset t ht]
  congr 2
  simp only [DateTime.dayStart, days, microsecondsPerDay]
  omega

theorem dayStart_lt_dayStart {m n : ℤ} :
    (DateTime.dayStart offset m).microsecondsSinceEpoch
      < (DateTime.dayStart offset n).microsecondsSinceEpoch ↔ m < n := by
  simp only [DateTime.dayStart, days, microsecondsPerDay]
  omega

theorem dayStart_le_dayStart {m n : ℤ} :
    (DateTime.dayStart offset m).microsecondsSinceEpoch
      ≤ (DateTime.dayStart offset n).microsecondsSinceEpoch ↔ m ≤ n := by
  rw [← not_lt, dayStart_lt_dayStart, not_lt]

/-! ## The loops -/

/-- The daily, weekday and weekend loops, for a step that walks the admitted days. -/
theorem search_isNext {Q : Set ℤ} {f : ℤ → ℤ} (step : DateTime → DateTime)
    (hf : ∀ n, IsNext Q n (f n))
    (hstep : ∀ n, step (DateTime.dayStart offset n) = DateTime.dayStart offset (f n))
    (a : ℤ) (date : DateTime) (hdate : date.isUtc = false) :
    ∃ n, whileLoop (fun t => !t.isAfter date) step
          (rounds (step (DateTime.dayStart offset a)) date) (step (DateTime.dayStart offset a))
        = some (DateTime.dayStart offset n)
      ∧ IsLeast {m | m ∈ Q ∧ a < m ∧ date.epochDay (.fixed offset) < m} n := by
  have hc : ∀ n, (!(DateTime.dayStart offset n).isAfter date)
      = decide (n ≤ date.epochDay (.fixed offset)) := by
    intro n
    rw [DateTime.isAfter_dayStart offset n date hdate, ← decide_not, decide_eq_decide]
    omega
  -- over day numbers, the loop is a search for the next admitted day
  rw [hstep, rounds_dayStart offset _ date hdate,
    whileLoop_map (DateTime.dayStart offset) hc hstep]
  obtain ⟨n, hn, hleast⟩ := whileLoop_isLeast_above a (date.epochDay (.fixed offset))
    ((date.epochDay (.fixed offset) - f a).toNat + 2) hf (by push_cast; omega)
  exact ⟨n, by rw [hn, Option.map_some], hleast⟩

/-- The least admitted day above two days is, as a midnight, the next of the
midnights the rule admits after the second of them. -/
theorem isNext_dayStart {Q : ℤ → Prop} {a b n : ℤ}
    (h : IsLeast {m | m ∈ {m | Q m} ∧ a < m ∧ b < m} n) :
    IsNext {x | ∃ m, Q m ∧ b < m ∧ x = (DateTime.dayStart offset m).microsecondsSinceEpoch}
      (DateTime.dayStart offset a).microsecondsSinceEpoch
      (DateTime.dayStart offset n).microsecondsSinceEpoch := by
  have hnext : IsNext {m | Q m ∧ b < m} a n :=
    ⟨⟨⟨h.1.1, h.1.2.2⟩, h.1.2.1⟩, fun m hm => h.2 ⟨hm.1.1, hm.2, hm.1.2⟩⟩
  refine hnext.map (dayStart_lt_dayStart offset) fun x => ?_
  constructor
  · rintro ⟨m, hQ, hb, rfl⟩
    exact ⟨m, ⟨hQ, hb⟩, rfl⟩
  · rintro ⟨m, ⟨hQ, hb⟩, rfl⟩
    exact ⟨m, hQ, hb, rfl⟩

/-- The weekly loop: weeks from the task's own instant, past a midnight. -/
theorem weekly_isNext (d bound : ℤ) :
    ∃ x, whileLoop (fun t : DateTime => !t.isAfter ⟨bound, false⟩) (fun t => t.add (days 7))
          (rounds ⟨d, false⟩ ⟨bound, false⟩) ⟨d, false⟩ = some ⟨x, false⟩
      ∧ IsNext (orbit (· + days 7) d) bound x := by
  have hc : ∀ x : ℤ, (!(⟨x, false⟩ : DateTime).isAfter ⟨bound, false⟩) = decide (x ≤ bound) := by
    intro x
    unfold DateTime.isAfter
    rw [← decide_not, decide_eq_decide]
    exact not_lt
  have hf : ∀ x : ℤ, x < x + days 7 := by
    intro x
    simp only [days, microsecondsPerDay]
    omega
  obtain ⟨x, hx, hnext⟩ := whileLoop_isNext bound (rounds ⟨d, false⟩ ⟨bound, false⟩)
    (isLeast_orbit hf d) (isNext_orbit hf d) (fun x _ => le_refl (x + days 7))
    (by simp only [rounds, DateTime.difference, days, microsecondsPerDay]; push_cast; omega)
  refine ⟨x, ?_, hnext⟩
  rw [whileLoop_map (fun x => (⟨x, false⟩ : DateTime)) hc (fun _ => rfl), hx, Option.map_some]

/-- The monthly loop: month steps from a midnight, past another. -/
theorem monthly_isNext (s a : ℤ) :
    ∃ x, whileLoop (fun t => !(DateTime.dayStart offset a).isBefore t) (nextMonth (.fixed offset))
          (rounds (DateTime.dayStart offset s) (DateTime.dayStart offset a))
          (DateTime.dayStart offset s) = some ⟨x, false⟩
      ∧ IsNext {x | ∃ n ∈ orbit monthStep s,
          x = (DateTime.dayStart offset n).microsecondsSinceEpoch}
        (DateTime.dayStart offset a).microsecondsSinceEpoch x := by
  have hc : ∀ n, (!(DateTime.dayStart offset a).isBefore (DateTime.dayStart offset n))
      = decide (n ≤ a) := by
    intro n
    rw [DateTime.isBefore_dayStart offset n _ rfl, DateTime.epochDay_dayStart, ← decide_not,
      decide_eq_decide]
    exact not_lt
  rw [rounds_dayStart offset s _ rfl, DateTime.epochDay_dayStart]
  obtain ⟨n, hn, hnext⟩ := whileLoop_isNext a ((a - s).toNat + 2) (isLeast_orbit lt_monthStep s)
    (isNext_orbit lt_monthStep s) (fun x _ => lt_monthStep x) (by push_cast; omega)
  refine ⟨_, ?_, hnext.map (dayStart_lt_dayStart offset) fun x => Iff.rfl⟩
  rw [whileLoop_map (DateTime.dayStart offset) hc (nextMonth_dayStart offset), hn,
    Option.map_some]
  rfl

/-! ## The next date -/

/-- **`findNextTime` finds the next occurrence**: its loops end, on the least
occurrence of the task after the midnight the clock variable `nowDate` holds. -/
theorem nextDate_isNext (now : DateTime) (task : AppTask) (hdate : task.date.isUtc = false) :
    ∃ x, nextDate (.fixed offset) (.read (.fixed offset) now) task = some ⟨x, false⟩
      ∧ IsNext (occurrences offset task)
          (DateTime.dayStart offset (now.epochDay (.fixed offset))).microsecondsSinceEpoch x := by
  have hnow : (Clock.read (.fixed offset) now).nowDate
      = DateTime.dayStart offset (now.epochDay (.fixed offset)) :=
    DateTime.midnight_fixed offset now
  unfold nextDate occurrences
  rw [hnow]
  -- the two month rules share a loop, the three day rules a search
  have hmonth := monthly_isNext offset (monthStep (task.date.epochDay (.fixed offset)))
    (now.epochDay (.fixed offset))
  rw [← nextMonth_eq] at hmonth
  cases hr : task.repeats with
  | never => exact hmonth
  | monthly => exact hmonth
  | daily =>
      obtain ⟨n, hn, hleast⟩ := search_isNext offset (fun t => t.add (days 1)) isNext_dailyStep
        (fun n => DateTime.dayStart_add offset n 1) (now.epochDay (.fixed offset)) task.date hdate
      exact ⟨_, hn, isNext_dayStart offset hleast⟩
  | weekdays =>
      obtain ⟨n, hn, hleast⟩ := search_isNext offset (nextWeekday (.fixed offset))
        isNext_weekdayStep (nextWeekday_dayStart offset) (now.epochDay (.fixed offset)) task.date
        hdate
      exact ⟨_, hn, isNext_dayStart offset hleast⟩
  | weekends =>
      obtain ⟨n, hn, hleast⟩ := search_isNext offset (nextWeekend (.fixed offset))
        isNext_weekendStep (nextWeekend_dayStart offset) (now.epochDay (.fixed offset)) task.date
        hdate
      exact ⟨_, hn, isNext_dayStart offset hleast⟩
  | weekly =>
      obtain ⟨x, hx, hnext⟩ := weekly_isNext (task.date.microsecondsSinceEpoch + days 7)
        (DateTime.dayStart offset (now.epochDay (.fixed offset))).microsecondsSinceEpoch
      refine ⟨x, ?_, hnext⟩
      -- the first round starts a week on
      have hadd : task.date.add (days 7)
          = ⟨task.date.microsecondsSinceEpoch + days 7, false⟩ := by rw [DateTime.add, hdate]
      rw [hadd]
      exact hx

/-- The instant of an occurrence with the task's time of day, where it has one. -/
def placed (task : AppTask) (x : ℤ) : DateTime :=
  match task.hasTime, task.time with
  | true, some time =>
      .ofFields (.fixed offset) ((DateTime.ofMicros x).year (.fixed offset))
        ((DateTime.ofMicros x).month (.fixed offset)) ((DateTime.ofMicros x).day (.fixed offset))
        (time.hour (.fixed offset)) (time.minute (.fixed offset))
  | _, _ => .ofMicros x

theorem epochDay_placed (task : AppTask) (x : ℤ) :
    (placed offset task x).epochDay (.fixed offset)
      = (DateTime.ofMicros x).epochDay (.fixed offset) := by
  unfold placed
  split
  · exact DateTime.epochDay_ofFields offset _ (DateTime.hour_bounds _ _)
      (DateTime.minute_bounds _ _)
  · rfl

/-- `findNextTime` places the next occurrence. -/
theorem findNextTime_isNext (now : DateTime) {task : AppTask} (h : task.WellFormed)
    (hdate : task.date.isUtc = false) :
    ∃ x, findNextTime (.fixed offset) (.read (.fixed offset) now) task = .ok (placed offset task x)
      ∧ IsNext (occurrences offset task)
          (DateTime.dayStart offset (now.epochDay (.fixed offset))).microsecondsSinceEpoch x := by
  obtain ⟨x, hx, hnext⟩ := nextDate_isNext offset now task hdate
  refine ⟨x, ?_, hnext⟩
  unfold findNextTime placed
  rw [hx]
  by_cases ht : task.hasTime = true
  · obtain ⟨time, htime⟩ := Option.isSome_iff_exists.mp (h.time_isSome ht)
    simp only [ht, htime, if_true]
    rfl
  · simp only [ht, Bool.false_eq_true, if_false]
    rfl

/-- Weeks from an instant. -/
theorem iterate_week (s : ℤ) (k : ℕ) : (· + days 7)^[k] s = s + k * days 7 := by
  induction k with
  | zero => simp
  | succ k ih =>
      rw [Function.iterate_succ_apply', ih]
      push_cast
      ring

end AquaFocus.Reschedule
