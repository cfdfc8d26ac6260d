/-
The days `findNextTime` lands on, in a zone of constant offset.

`Reschedule` finds the next occurrence as an instant. Here it is a calendar day:
for the three day rules the earliest admissible one, at the task's time of day
(`findNextTime_earliest`); for the weekly rule the earliest one a whole number of
weeks on, but for a task that is overdue by whole weeks and was stored with a
time of day in its date (`weekly_iff`).
-/
import AquaFocus.Reschedule
import AquaFocus.AddTask

set_option autoImplicit false

open Dart Loop

namespace AquaFocus.NextDay

open AquaFocus.Reschedule

variable (offset : UtcOffset)

/-! ## The time of day -/

/-- The time of day of a task that has one, in microseconds; midnight otherwise. -/
def timeOfDay (task : AppTask) : ℤ :=
  match task.hasTime, task.time with
  | true, some time =>
      time.hour (.fixed offset) * microsecondsPerHour
        + time.minute (.fixed offset) * microsecondsPerMinute
  | _, _ => 0

/-- A midnight is placed at the task's time of day. -/
theorem wallClock_placed (task : AppTask) (n : ℤ) :
    (placed offset task (DateTime.dayStart offset n).microsecondsSinceEpoch).wallClock
      (.fixed offset) = days n + timeOfDay offset task := by
  have hday : (DateTime.ofMicros
      (DateTime.dayStart offset n).microsecondsSinceEpoch).epochDay (.fixed offset) = n :=
    DateTime.epochDay_dayStart offset n
  have hmidnight : (DateTime.ofMicros
      (DateTime.dayStart offset n).microsecondsSinceEpoch).wallClock (.fixed offset)
      = days n + 0 := by
    rw [add_zero]
    exact DateTime.wallClock_dayStart offset n
  unfold placed timeOfDay
  cases task.hasTime with
  | false => exact hmidnight
  | true =>
      cases task.time with
      | none => exact hmidnight
      | some time =>
          simp only [DateTime.wallClock_ofFields, DateTime.year, DateTime.month, DateTime.day,
            hday, Civil.dayNumber_civil, add_assoc]

/-! ## Daily, on weekdays, at weekends -/

/-- The midnights of the admitted days after a task's date. -/
theorem mem_occurrences_day {task : AppTask}
    (hr : task.repeats ∈ [Repeat.daily, .weekdays, .weekends]) {x : ℤ} :
    x ∈ occurrences offset task ↔ ∃ n, Admits task.repeats n
      ∧ task.date.epochDay (.fixed offset) < n
      ∧ x = (DateTime.dayStart offset n).microsecondsSinceEpoch := by
  unfold occurrences
  generalize task.repeats = r at hr
  cases r with
  | daily | weekdays | weekends => exact Iff.rfl
  | never | weekly | monthly => exact absurd hr (by decide)

/-- **The day rules**: the next date is the earliest admissible day after both
the day of `nowDate` and the day of the task's date, at the task's time of day. -/
theorem findNextTime_earliest (now : DateTime) {task : AppTask} (h : task.WellFormed)
    (hdate : task.date.isUtc = false)
    (hr : task.repeats ∈ [Repeat.daily, .weekdays, .weekends]) :
    ∃ t, findNextTime (.fixed offset) (.read (.fixed offset) now) task = .ok t
      ∧ IsLeast {n | Admits task.repeats n ∧ now.epochDay (.fixed offset) < n
          ∧ task.date.epochDay (.fixed offset) < n} (t.epochDay (.fixed offset))
      ∧ t.wallClock (.fixed offset)
        = days (t.epochDay (.fixed offset)) + timeOfDay offset task := by
  obtain ⟨x, hx, hnext⟩ := findNextTime_isNext offset now h hdate
  obtain ⟨n, hadmits, hafter, rfl⟩ := (mem_occurrences_day offset hr).mp hnext.mem
  have hday : (placed offset task
      (DateTime.dayStart offset n).microsecondsSinceEpoch).epochDay (.fixed offset) = n := by
    rw [epochDay_placed]
    exact DateTime.epochDay_dayStart offset n
  refine ⟨_, hx, ?_, ?_⟩
  · rw [hday]
    refine ⟨⟨hadmits, (dayStart_lt_dayStart offset).mp hnext.lt, hafter⟩, ?_⟩
    rintro m ⟨hm, hnow, hdated⟩
    -- an earlier admissible day would be an earlier occurrence
    have hle := hnext.le ((mem_occurrences_day offset hr).mpr ⟨m, hm, hdated, rfl⟩)
      ((dayStart_lt_dayStart offset).mpr hnow)
    exact (dayStart_le_dayStart offset).mp hle
  · rw [hday, wallClock_placed]

/-- A daily task of 1 June at two in the afternoon, on that day: it moves to 2 June. -/
theorem findNextTime_earliest_swim :
    ∃ t, findNextTime (.fixed .utc) (.read (.fixed .utc) (noonOfJune 1).now)
        (.fromDS "doc" (swimAtTwo .daily)) = .ok t
      ∧ IsLeast {n | Admits .daily n ∧ (noonOfJune 1).now.epochDay (.fixed .utc) < n
          ∧ (AppTask.fromDS "doc" (swimAtTwo .daily)).date.epochDay (.fixed .utc) < n}
          (t.epochDay (.fixed .utc))
      ∧ t.wallClock (.fixed .utc) = days (t.epochDay (.fixed .utc))
          + timeOfDay .utc (.fromDS "doc" (swimAtTwo .daily)) :=
  findNextTime_earliest .utc (noonOfJune 1).now
    ((newTask_wellFormed utc "uid" "uuid" _).read "doc") rfl (by decide)

/-! ## Weekly -/

theorem mem_occurrences_week {task : AppTask} (hr : task.repeats = .weekly) {x : ℤ} :
    x ∈ occurrences offset task
      ↔ ∃ k : ℕ, 1 ≤ k ∧ x = task.date.microsecondsSinceEpoch + k * days 7 := by
  unfold occurrences
  rw [hr]
  constructor
  · rintro ⟨k, rfl⟩
    refine ⟨k + 1, by omega, ?_⟩
    rw [iterate_week]
    push_cast
    ring
  · rintro ⟨k, hk, rfl⟩
    obtain ⟨j, rfl⟩ := Nat.exists_eq_add_of_le hk
    refine ⟨j, ?_⟩
    rw [iterate_week]
    push_cast
    ring

/-- So many weeks on from a date, by its day and against a midnight: the date's
time of day decides on the day itself. -/
theorem week_after (date : DateTime) (hdate : date.isUtc = false) (k : ℕ) (n : ℤ) :
    (DateTime.ofMicros (date.microsecondsSinceEpoch + k * days 7)).epochDay (.fixed offset)
        = date.epochDay (.fixed offset) + 7 * k
      ∧ ((DateTime.dayStart offset n).microsecondsSinceEpoch
          < date.microsecondsSinceEpoch + k * days 7
        ↔ n < date.epochDay (.fixed offset) + 7 * k
          ∨ n = date.epochDay (.fixed offset) + 7 * k ∧ date ≠ date.midnight (.fixed offset)) := by
  have hmidnight : date = date.midnight (.fixed offset)
      ↔ date.wallClock (.fixed offset) = days (date.epochDay (.fixed offset)) := by
    rw [DateTime.midnight_fixed, DateTime.wallClock_fixed offset date hdate, DateTime.dayStart,
      ← eq_sub_iff_add_eq]
    obtain ⟨x, rfl⟩ : ∃ x, date = ⟨x, false⟩ := ⟨_, by rw [← hdate]⟩
    exact ⟨fun h => congrArg DateTime.microsecondsSinceEpoch h, fun h => by rw [← h]⟩
  rw [ne_eq, hmidnight, DateTime.epochDay_ofMicros, DateTime.epochDay,
    DateTime.wallClock_fixed offset date hdate]
  simp only [DateTime.dayStart, days, microsecondsPerDay]
  omega

/-- **The weekly rule**: the next date is the earliest day a whole number of weeks
after the task's, and after the day of `nowDate`, exactly when the task is not
overdue by whole weeks or its date is a midnight. -/
theorem weekly_iff (now : DateTime) {task : AppTask} (h : task.WellFormed)
    (hdate : task.date.isUtc = false) (hr : task.repeats = .weekly) :
    (∃ t, findNextTime (.fixed offset) (.read (.fixed offset) now) task = .ok t
      ∧ IsLeast {n | (∃ k : ℕ, 1 ≤ k ∧ n = task.date.epochDay (.fixed offset) + 7 * k)
          ∧ now.epochDay (.fixed offset) < n} (t.epochDay (.fixed offset)))
      ↔ task.date = task.date.midnight (.fixed offset)
        ∨ ∀ k : ℕ, 1 ≤ k →
          now.epochDay (.fixed offset) ≠ task.date.epochDay (.fixed offset) + 7 * k := by
  obtain ⟨x, hx, hnext⟩ := findNextTime_isNext offset now h hdate
  obtain ⟨k, hk, rfl⟩ := (mem_occurrences_week offset hr).mp hnext.mem
  have hweek := week_after offset task.date hdate
  have hday := (hweek k 0).1
  have hlt := (hweek k _).2.mp hnext.lt
  constructor
  · rintro ⟨t, ht, ⟨-, hafter⟩, -⟩
    rw [hx, Except.ok.injEq] at ht
    rw [← ht, epochDay_placed, hday] at hafter
    rw [or_iff_not_imp_left]
    intro hmidnight j hj hnow
    -- with a time of day, the occurrence on the day of `nowDate` is taken
    have hle := hnext.le ((mem_occurrences_week offset hr).mpr ⟨j, hj, rfl⟩)
      ((hweek j _).2.mpr (.inr ⟨hnow, hmidnight⟩))
    simp only [days, microsecondsPerDay] at hle
    omega
  · intro hcond
    refine ⟨_, hx, ?_⟩
    rw [epochDay_placed, hday]
    refine ⟨⟨⟨k, hk, rfl⟩, ?_⟩, ?_⟩
    · rcases hlt with hlt | ⟨hnow, hmidnight⟩
      · exact hlt
      · rcases hcond with hmid | hnone
        · exact absurd hmid hmidnight
        · exact absurd hnow (hnone k hk)
    · rintro m ⟨⟨j, hj, rfl⟩, hnow⟩
      have hle := hnext.le ((mem_occurrences_week offset hr).mpr ⟨j, hj, rfl⟩)
        ((hweek j _).2.mpr (.inl hnow))
      simp only [days, microsecondsPerDay] at hle
      omega

/-- A weekly task stored at two in the afternoon of 1 June 2022, and completed a
week later: its next date is on the day it was completed. -/
theorem not_weekly :
    findNextTime utc (noonOfJune 8) (.fromDS "doc" (newTask utc "uid" "uuid"
        (.untimed 1654092000000 .weekly))) = .ok (.ofMillis 1654696800000)
      ∧ ¬ ∃ t, findNextTime utc (noonOfJune 8) (.fromDS "doc" (newTask utc "uid" "uuid"
          (.untimed 1654092000000 .weekly))) = .ok t
        ∧ IsLeast {n | (∃ k : ℕ, 1 ≤ k ∧ n = (DateTime.ofMillis 1654092000000).epochDay utc + 7 * k)
          ∧ (noonOfJune 8).now.epochDay utc < n} (t.epochDay utc) := by
  have hresult : findNextTime utc (noonOfJune 8) (.fromDS "doc" (newTask utc "uid" "uuid"
      (.untimed 1654092000000 .weekly))) = .ok (.ofMillis 1654696800000) := rfl
  refine ⟨hresult, ?_⟩
  rintro ⟨t, ht, ⟨-, hafter⟩, -⟩
  rw [hresult, Except.ok.injEq] at ht
  rw [← ht] at hafter
  exact absurd hafter (by decide)

/-- The same task dated at midnight. -/
theorem weekly_iff_swim :
    (∃ t, findNextTime (.fixed .utc) (.read (.fixed .utc) (noonOfJune 8).now)
        (.fromDS "doc" (swim .weekly)) = .ok t
      ∧ IsLeast {n | (∃ k : ℕ, 1 ≤ k
            ∧ n = (AppTask.fromDS "doc" (swim .weekly)).date.epochDay (.fixed .utc) + 7 * k)
          ∧ (noonOfJune 8).now.epochDay (.fixed .utc) < n} (t.epochDay (.fixed .utc)))
      ↔ (AppTask.fromDS "doc" (swim .weekly)).date
          = (AppTask.fromDS "doc" (swim .weekly)).date.midnight (.fixed .utc)
        ∨ ∀ k : ℕ, 1 ≤ k → (noonOfJune 8).now.epochDay (.fixed .utc)
          ≠ (AppTask.fromDS "doc" (swim .weekly)).date.epochDay (.fixed .utc) + 7 * k :=
  weekly_iff .utc (noonOfJune 8).now ((swim_wellFormed .weekly).read "doc") rfl rfl

end AquaFocus.NextDay
