/-
`lib/screens/Tasks/task_utils.dart`: the clock variables, the reward test, the
search for a repeating task's next date, and the reminder test.

The library-level variables `now`, `nowDate` and `nowTime` are a `Clock`, an
argument of every function that reads them. They are assigned once, from one
`DateTime.now()`, which is `Clock.read`.

A `!` on a null value throws, so the functions that use one return in
`Except Fault`. The loops of `findNextTime` carry a number of rounds computed
from the distance they have to cover, one for each day and two over, and running
out of them is a fault of its own. They do not run out, whatever the zone
(`nextDate_ends`): every step of every loop is a day or more.
-/
import AquaFocus.AppTask
import AquaFocus.Lib.Loop

set_option autoImplicit false

open Dart Loop

namespace AquaFocus

/-- The ways a call of these functions can throw, or fail to return. -/
inductive Fault
  | nullCheck | typeError | diverges | notFound
deriving DecidableEq, Repr

/-! ## The clock variables -/

structure Clock where
  now : DateTime
  nowDate : DateTime
  nowTime : DateTime
deriving DecidableEq, Repr

/-- The three variables, when `DateTime.now()` reads `now`. -/
def Clock.read (z : Zone) (now : DateTime) : Clock where
  now := now
  nowDate := now.midnight z
  nowTime := .ofFields z 1970 1 1 (now.hour z) (now.minute z)

/-! ## The reward test -/

/-- `daysBetween`. -/
def daysBetween (z : Zone) (start stop : DateTime) : ℤ :=
  roundDiv24 (inHours ((stop.midnight z).difference (start.midnight z)))

/-- `giveMoney`. -/
def giveMoney (z : Zone) (c : Clock) (task : AppTask) : Bool :=
  match task.repeats with
  | .never => true
  | .daily | .weekdays | .weekends => task.prevCompletionTime.isBefore c.nowDate
  | .weekly =>
      -- the weekday went back: a week has turned over
      if c.now.weekday z - task.prevCompletionTime.weekday z < 0 then true
      else decide (7 ≤ daysBetween z task.prevCompletionTime c.now)
  | .monthly => decide (task.prevCompletionTime.month z ≠ c.now.month z)

/-- Midnights whose offsets are less than half a day apart are counted right. -/
theorem daysBetween_eq {z : Zone} {t u : DateTime}
    (hlo : -(12 * microsecondsPerHour)
      < z.midnightOffset (t.epochDay z) - z.midnightOffset (u.epochDay z))
    (hhi : z.midnightOffset (t.epochDay z) - z.midnightOffset (u.epochDay z)
      < 12 * microsecondsPerHour) :
    daysBetween z t u = u.epochDay z - t.epochDay z := by
  unfold daysBetween
  rw [DateTime.difference_midnight, roundDiv24_inHours _ hlo hhi]

/-- The weekly test, where the days between are counted right: the weekday went
back, or seven days have passed. -/
theorem giveMoney_weekly {z : Zone} {c : Clock} {task : AppTask} (hr : task.repeats = .weekly)
    (hdays : daysBetween z task.prevCompletionTime c.now
      = c.now.epochDay z - task.prevCompletionTime.epochDay z) :
    giveMoney z c task
      = decide (Civil.weekdayOf (c.now.epochDay z)
            < Civil.weekdayOf (task.prevCompletionTime.epochDay z)
          ∨ task.prevCompletionTime.epochDay z + 7 ≤ c.now.epochDay z) := by
  unfold giveMoney
  simp only [hr, DateTime.weekday, hdays]
  split
  · rw [eq_comm, decide_eq_true_eq]
    omega
  · rw [decide_eq_decide]
    omega

/-! ## The next date -/

/-- `DateTimeExtension.next`: the next `day` of the week, today included. -/
def next (z : Zone) (t : DateTime) (day : ℤ) : DateTime := t.add (days ((day - t.weekday z) % 7))

/-- One step of the weekday search: from Friday on to Monday, else to tomorrow. -/
def nextWeekday (z : Zone) (t : DateTime) : DateTime :=
  if 5 ≤ t.weekday z then next z t 1 else t.add (days 1)

/-- One step of the weekend search: to Saturday, and from Saturday to Sunday. -/
def nextWeekend (z : Zone) (t : DateTime) : DateTime :=
  if t.weekday z ≠ 6 then next z t 6 else t.add (days 1)

/-- `DateTime(t.year, t.month + 1, t.day)`. -/
def nextMonth (z : Zone) (t : DateTime) : DateTime :=
  .ofDate z (t.year z) (t.month z + 1) (t.day z)

/-- The rounds a loop from `start` past `bound` is given: one a day, and two. -/
def rounds (start bound : DateTime) : ℕ :=
  (bound.difference start / microsecondsPerDay).toNat + 2

/-- The loops of `findNextTime`: the next date, before the time of day is set. -/
def nextDate (z : Zone) (c : Clock) (task : AppTask) : Option DateTime :=
  let search (step : DateTime → DateTime) :=
    let start := step c.nowDate
    whileLoop (fun t => !t.isAfter task.date) step (rounds start task.date) start
  match task.repeats with
  | .daily => search (fun t => t.add (days 1))
  | .weekdays => search (nextWeekday z)
  | .weekends => search (nextWeekend z)
  | .weekly =>
      -- from the date itself, with its time of day
      let start := task.date.add (days 7)
      whileLoop (fun t => !t.isAfter c.nowDate) (fun t => t.add (days 7))
        (rounds start c.nowDate) start
  -- the last branch of the source takes every other value
  | .monthly | .never =>
      let start := nextMonth z task.date
      whileLoop (fun t => !c.nowDate.isBefore t) (nextMonth z) (rounds start c.nowDate) start

/-- `findNextTime`. -/
def findNextTime (z : Zone) (c : Clock) (task : AppTask) : Except Fault DateTime :=
  match nextDate z c task with
  | none => .error .diverges
  | some t =>
      if task.hasTime then
        match task.time with
        -- `task.time!`
        | none => .error .nullCheck
        | some time =>
            .ok (.ofFields z (t.year z) (t.month z) (t.day z) (time.hour z) (time.minute z))
      else .ok t

/-! ## The loops end

The five loops are one: from a start that the step of the rule takes, on by that
step as long as a bound is not passed. -/

/-- The step of a rule's loop. -/
def loopStep (z : Zone) : Repeat → DateTime → DateTime
  | .daily => fun t => t.add (days 1)
  | .weekdays => nextWeekday z
  | .weekends => nextWeekend z
  | .weekly => fun t => t.add (days 7)
  | .monthly | .never => nextMonth z

/-- The value a rule's first step is taken from. -/
def loopFrom (c : Clock) (task : AppTask) : DateTime :=
  match task.repeats with
  | .daily | .weekdays | .weekends => c.nowDate
  | .weekly | .monthly | .never => task.date

/-- The value a rule's loop has to pass. -/
def loopBound (c : Clock) (task : AppTask) : DateTime :=
  match task.repeats with
  | .daily | .weekdays | .weekends => task.date
  | .weekly | .monthly | .never => c.nowDate

theorem nextDate_eq (z : Zone) (c : Clock) (task : AppTask) :
    nextDate z c task
      = whileLoop (fun t => !t.isAfter (loopBound c task)) (loopStep z task.repeats)
          (rounds (loopStep z task.repeats (loopFrom c task)) (loopBound c task))
          (loopStep z task.repeats (loopFrom c task)) := by
  unfold nextDate loopStep loopFrom loopBound
  cases task.repeats <;> rfl

theorem rounds_cover (start bound : DateTime) :
    bound.microsecondsSinceEpoch
      < start.microsecondsSinceEpoch + rounds start bound * microsecondsPerDay := by
  simp only [rounds, DateTime.difference, microsecondsPerDay]
  push_cast
  omega

theorem le_add_days (t : DateTime) {n : ℤ} (h : 1 ≤ n) :
    t.microsecondsSinceEpoch + microsecondsPerDay ≤ (t.add (days n)).microsecondsSinceEpoch := by
  simp only [DateTime.add, days, microsecondsPerDay]
  omega

theorem le_nextWeekday (z : Zone) (t : DateTime) :
    t.microsecondsSinceEpoch + microsecondsPerDay ≤ (nextWeekday z t).microsecondsSinceEpoch := by
  have hw := Civil.weekdayOf_bounds (t.epochDay z)
  unfold nextWeekday next DateTime.weekday
  by_cases h : 5 ≤ Civil.weekdayOf (t.epochDay z)
  · rw [if_pos h]
    exact le_add_days t (by omega)
  · rw [if_neg h]
    exact le_add_days t (by omega)

theorem le_nextWeekend (z : Zone) (t : DateTime) :
    t.microsecondsSinceEpoch + microsecondsPerDay ≤ (nextWeekend z t).microsecondsSinceEpoch := by
  have hw := Civil.weekdayOf_bounds (t.epochDay z)
  unfold nextWeekend next DateTime.weekday
  by_cases h : Civil.weekdayOf (t.epochDay z) ≠ 6
  · rw [if_pos h]
    exact le_add_days t (by omega)
  · rw [if_neg h]
    exact le_add_days t (by omega)

/-- A month on is more than a day on: the constructor is less than three days off
the date it names. -/
theorem le_nextMonth (z : Zone) (t : DateTime) :
    t.microsecondsSinceEpoch + microsecondsPerDay ≤ (nextMonth z t).microsecondsSinceEpoch := by
  -- the value is less than a day past its wall clock, and a month has four weeks at least
  have hwall := (t.wallClock_bounds z).1
  have hdate := (DateTime.ofDate_bounds z (t.year z) (t.month z + 1) (t.day z)).1
  have hmonth := Civil.dayNumber_month_succ (t.year z) (t.month z) (t.day z)
  have hday : Civil.dayNumber (t.year z) (t.month z) (t.day z)
      = t.wallClock z / microsecondsPerDay :=
    Civil.dayNumber_civil (t.epochDay z)
  rw [hday] at hmonth
  unfold nextMonth
  simp only [days, microsecondsPerDay] at *
  omega

/-- Every step of every loop is a day or more. -/
theorem le_loopStep (z : Zone) (r : Repeat) (t : DateTime) :
    t.microsecondsSinceEpoch + microsecondsPerDay ≤ (loopStep z r t).microsecondsSinceEpoch := by
  cases r with
  | never => exact le_nextMonth z t
  | daily => exact le_add_days t (le_refl 1)
  | weekdays => exact le_nextWeekday z t
  | weekends => exact le_nextWeekend z t
  | weekly => exact le_add_days t (by omega)
  | monthly => exact le_nextMonth z t

/-- The loops of `findNextTime` end, in any zone, and past their bound. -/
theorem nextDate_ends (z : Zone) (c : Clock) (task : AppTask) :
    ∃ t, nextDate z c task = some t
      ∧ (loopBound c task).microsecondsSinceEpoch < t.microsecondsSinceEpoch := by
  have hcond : ∀ t : DateTime, (!t.isAfter (loopBound c task)) = true →
      t.microsecondsSinceEpoch ≤ (loopBound c task).microsecondsSinceEpoch := by
    intro t ht
    simpa [DateTime.isAfter] using ht
  obtain ⟨t, ht, hend⟩ := whileLoop_ends DateTime.microsecondsSinceEpoch
    (loopBound c task).microsecondsSinceEpoch microsecondsPerDay hcond (le_loopStep z task.repeats)
    (rounds (loopStep z task.repeats (loopFrom c task)) (loopBound c task))
    (loopStep z task.repeats (loopFrom c task)) (rounds_cover _ _)
  refine ⟨t, by rw [nextDate_eq, ht], ?_⟩
  simpa [DateTime.isAfter] using hend

/-- **`findNextTime` ends**: whatever the zone, the clock variables and the task,
every round of its loop moves the date on by a day or more, so the loop passes
its bound and the call does not run on for ever. -/
theorem findNextTime_ends (z : Zone) (c : Clock) (task : AppTask) :
    (∀ t : DateTime, t.microsecondsSinceEpoch + microsecondsPerDay
        ≤ (loopStep z task.repeats t).microsecondsSinceEpoch)
      ∧ (∃ t, nextDate z c task = some t
        ∧ (loopBound c task).microsecondsSinceEpoch < t.microsecondsSinceEpoch)
      ∧ findNextTime z c task ≠ .error .diverges := by
  refine ⟨le_loopStep z task.repeats, nextDate_ends z c task, fun h => ?_⟩
  obtain ⟨t, ht, -⟩ := nextDate_ends z c task
  unfold findNextTime at h
  rw [ht] at h
  -- all that is left to go wrong is a time of day that is not there
  by_cases htime : task.hasTime = true
  · simp only [if_pos htime] at h
    cases hsome : task.time <;> simp [hsome] at h
  · simp [htime] at h

/-- A well-formed task has a next date. -/
theorem findNextTime_ok (z : Zone) (c : Clock) {task : AppTask} (h : task.WellFormed) :
    ∃ t, findNextTime z c task = .ok t := by
  obtain ⟨t, ht, -⟩ := nextDate_ends z c task
  unfold findNextTime
  rw [ht]
  by_cases htime : task.hasTime = true
  · obtain ⟨time, hsome⟩ := Option.isSome_iff_exists.mp (h.time_isSome htime)
    simp only [if_pos htime, hsome]
    exact ⟨_, rfl⟩
  · exact ⟨t, if_neg htime⟩

/-! ## Reminders -/

/-- How long before its time a task is announced. -/
def Reminder.lead : Option Reminder → ℤ
  | some .m5 => minutes 5
  | some .m10 => minutes 10
  | some .m15 => minutes 15
  | _ => 0

/-- `isScheduledEvent`: when a task is announced, if that is still to come. -/
def isScheduledEvent (z : Zone) (c : Clock) (event : AppTask) : Except Fault (Option DateTime) :=
  if event.reminder ≠ some .never then
    match event.time with
    | none => .error .nullCheck
    | some time =>
        let scheduledTime := (DateTime.ofFields z (event.date.year z) (event.date.month z)
          (event.date.day z) (time.hour z) (time.minute z)).subtract (Reminder.lead event.reminder)
        .ok (if scheduledTime.isAfter c.now then some scheduledTime else none)
  else .ok none

/-- A scheduled task has a reminder. -/
theorem reminder_of_isScheduledEvent {z : Zone} {c : Clock} {event : AppTask} {t : DateTime}
    (h : isScheduledEvent z c event = .ok (some t)) : event.reminder ≠ some .never := by
  intro hr
  simp [isScheduledEvent, hr] at h

/-- The reminder test of a well-formed task does not throw. -/
theorem isScheduledEvent_ok (z : Zone) (c : Clock) {event : AppTask} (h : event.WellFormed) :
    ∃ o, isScheduledEvent z c event = .ok o := by
  unfold isScheduledEvent
  by_cases hr : event.reminder = some .never
  · exact ⟨none, by simp [hr]⟩
  · obtain ⟨time, htime⟩ := Option.isSome_iff_exists.mp (h.time_of_reminder hr)
    simp [hr, htime]

end AquaFocus
