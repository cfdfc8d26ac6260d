/-
The clock of a process in a time its zone keeps its offset.

The reward test and the search for the next date are computed in a zone of
constant offset (`Reward.lean`, `Reschedule.lean`). A zone that changes its
offset does the same as one that does not for as long as it keeps it: from two
weeks before the instant the clock was read at, or the task's date where that is
earlier, to forty days after the later of the two (`Steady`). Two weeks hold the
weekly test's seven days, forty days a step of a month.

`giveMoney_steady` and `findNextTime_steady` are the two results. The day of the
last completion may be any, also one of another offset.
-/
import AquaFocus.Reward
import AquaFocus.DaylightSearch

set_option autoImplicit false

open Dart Loop

namespace AquaFocus.SteadyClock

open AquaFocus.Reschedule

/-- The clock variables of a process that first read them at instant `s`. -/
def clockOf (z : Zone) (s : ℤ) : Clock := .read z (.ofMicros s)

/-- A zone keeps its offset from two weeks before the earlier of `s` and the task's
date until forty days after the later of `t` and the task's date. -/
def Steady (z : Zone) (offset : UtcOffset) (task : AppTask) (s t : ℤ) : Prop :=
  z.SteadyOn offset (min s task.date.microsecondsSinceEpoch - days 14)
    (max t task.date.microsecondsSinceEpoch + days 40)

/-! ## The loops -/

section Loops

variable {z : Zone} {offset : UtcOffset} {lo hi : ℤ}

/-- A step of a loop, in the time a zone keeps its offset. -/
theorem loopStep_steady (h : z.SteadyOn offset lo hi) (r : Repeat) {t : DateTime}
    (ht : t.isUtc = false) (hlo : lo ≤ t.microsecondsSinceEpoch)
    (hhi : t.microsecondsSinceEpoch + days 32 ≤ hi) :
    loopStep z r t = loopStep (.fixed offset) r t ∧ (loopStep z r t).isUtc = false := by
  have hday : t.epochDay z = t.epochDay (.fixed offset) := by
    apply h.epochDay ht hlo
    simp only [days, microsecondsPerDay] at hhi
    omega
  have hweekday : t.weekday z = t.weekday (.fixed offset) := congrArg Civil.weekdayOf hday
  have hmonth : nextMonth z t = nextMonth (.fixed offset) t := by
    have hinstant : nextMonth z t = ⟨z.instantOf (days (monthStep (t.epochDay z))), false⟩ := by
      simp only [nextMonth, DateTime.ofDate, DateTime.ofFields, zero_mul, add_zero, monthStep,
        DateTime.year, DateTime.month, DateTime.day]
    have hwall := DateTime.wallClock_fixed offset t ht
    have hle := monthStep_le (t.epochDay (.fixed offset))
    have hlt := lt_monthStep (t.epochDay (.fixed offset))
    rw [nextMonth_eq, hinstant, hday]
    apply h.instantOf_dayStart
    · simp only [DateTime.epochDay, DateTime.dayStart, days, microsecondsPerDay] at *
      omega
    · simp only [DateTime.epochDay, DateTime.dayStart, days, microsecondsPerDay] at *
      omega
  cases r with
  | never => exact ⟨hmonth, rfl⟩
  | monthly => exact ⟨hmonth, rfl⟩
  | daily => exact ⟨rfl, ht⟩
  | weekly => exact ⟨rfl, ht⟩
  | weekdays =>
      refine ⟨by simp only [loopStep, nextWeekday, next, hweekday], ?_⟩
      change (nextWeekday z t).isUtc = false
      unfold nextWeekday next
      split <;> exact ht
  | weekends =>
      refine ⟨by simp only [loopStep, nextWeekend, next, hweekday], ?_⟩
      change (nextWeekend z t).isUtc = false
      unfold nextWeekend next
      split <;> exact ht

theorem loopStep_le (offset : UtcOffset) (r : Repeat) {t : DateTime} (ht : t.isUtc = false) :
    (loopStep (.fixed offset) r t).microsecondsSinceEpoch ≤ t.microsecondsSinceEpoch + days 32 := by
  have hmonth : (nextMonth (.fixed offset) t).microsecondsSinceEpoch
      ≤ t.microsecondsSinceEpoch + days 32 := by
    have hwall := DateTime.wallClock_fixed offset t ht
    have hle := monthStep_le (t.epochDay (.fixed offset))
    rw [nextMonth_eq]
    simp only [DateTime.epochDay, DateTime.dayStart, days, microsecondsPerDay] at *
    omega
  have hadd : ∀ k, k ≤ 7 → (t.add (days k)).microsecondsSinceEpoch
      ≤ t.microsecondsSinceEpoch + days 32 := by
    intro k hk
    simp only [DateTime.add, days, microsecondsPerDay]
    omega
  cases r with
  | never => exact hmonth
  | monthly => exact hmonth
  | daily => exact hadd 1 (by decide)
  | weekly => exact hadd 7 (by decide)
  | weekdays =>
      change (nextWeekday (.fixed offset) t).microsecondsSinceEpoch ≤ _
      unfold nextWeekday next
      split
      · exact hadd _ (by omega)
      · exact hadd 1 (by decide)
  | weekends =>
      change (nextWeekend (.fixed offset) t).microsecondsSinceEpoch ≤ _
      unfold nextWeekend next
      split
      · exact hadd _ (by omega)
      · exact hadd 1 (by decide)

/-- The loop of `findNextTime`, in the time a zone keeps its offset. -/
theorem nextDate_steady (h : z.SteadyOn offset lo hi) {c : Clock} {task : AppTask}
    (hutc : (loopFrom c task).isUtc = false)
    (hlo : lo ≤ (loopFrom c task).microsecondsSinceEpoch)
    (hfrom : (loopFrom c task).microsecondsSinceEpoch + days 32 ≤ hi)
    (hbound : (loopBound c task).microsecondsSinceEpoch + days 32 ≤ hi) :
    nextDate z c task = nextDate (.fixed offset) c task
      ∧ ∀ t, nextDate z c task = some t →
        lo ≤ t.microsecondsSinceEpoch ∧ t.microsecondsSinceEpoch ≤ hi := by
  have hstep : ∀ t : DateTime, t.isUtc = false ∧ lo ≤ t.microsecondsSinceEpoch →
      t.microsecondsSinceEpoch + days 32 ≤ hi →
      loopStep z task.repeats t = loopStep (.fixed offset) task.repeats t
        ∧ (loopStep z task.repeats t).isUtc = false
        ∧ lo ≤ (loopStep z task.repeats t).microsecondsSinceEpoch
        ∧ (loopStep z task.repeats t).microsecondsSinceEpoch ≤ hi := by
    rintro t ⟨ht, htlo⟩ hthi
    obtain ⟨heq, hlocal⟩ := loopStep_steady h task.repeats ht htlo hthi
    have hclimb := le_loopStep z task.repeats t
    have hle := loopStep_le offset task.repeats ht
    rw [← heq] at hle
    simp only [microsecondsPerDay] at hclimb
    exact ⟨heq, hlocal, by omega, by omega⟩
  have hgoes : ∀ t : DateTime, (!t.isAfter (loopBound c task)) = true →
      t.microsecondsSinceEpoch + days 32 ≤ hi := by
    intro t ht
    have hle : t.microsecondsSinceEpoch ≤ (loopBound c task).microsecondsSinceEpoch := by
      simpa [DateTime.isAfter] using ht
    omega
  obtain ⟨heq, hlocal, hfirst, hfirst'⟩ := hstep _ ⟨hutc, hlo⟩ hfrom
  constructor
  · rw [nextDate_eq, nextDate_eq, ← heq]
    refine whileLoop_congr (fun t => t.isUtc = false ∧ lo ≤ t.microsecondsSinceEpoch) ?_ _
      ⟨hlocal, hfirst⟩
    intro t ht hc
    obtain ⟨hsame, hlocal', hfirst', -⟩ := hstep t ht (hgoes t hc)
    exact ⟨hsame, hsame ▸ ⟨hlocal', hfirst'⟩⟩
  · intro t ht
    rw [nextDate_eq] at ht
    obtain ⟨⟨-, hmem⟩, -⟩ := whileLoop_invariant
      (fun t => t.isUtc = false ∧ lo ≤ t.microsecondsSinceEpoch ∧ t.microsecondsSinceEpoch ≤ hi)
      (fun t ht hc => (hstep t ⟨ht.1, ht.2.1⟩ (hgoes t hc)).2) ⟨hlocal, hfirst, hfirst'⟩ ht
    exact hmem

end Loops

/-! ## The reward test -/

section Clocks

variable {z : Zone} {offset : UtcOffset} {task : AppTask} {s t u : ℤ}

/-- A clock read on the way. -/
theorem Steady.at (h : Steady z offset task s t) (hsu : s ≤ u) (hut : u ≤ t) :
    Steady z offset task u u := by
  refine h.mono ?_ ?_ <;> omega

/-- The day of a clock, and its midnight. -/
theorem Steady.nowDate (h : Steady z offset task u u) :
    (DateTime.ofMicros u).epochDay z = dayOf offset u
      ∧ (clockOf z u).nowDate = DateTime.dayStart offset (dayOf offset u) := by
  have hday : (DateTime.ofMicros u).epochDay z = dayOf offset u := by
    refine h.epochDay rfl ?_ ?_
    · simp only [DateTime.ofMicros, days, microsecondsPerDay]
      omega
    · simp only [DateTime.ofMicros, days, microsecondsPerDay]
      omega
  refine ⟨hday, ?_⟩
  have hmid : (clockOf z u).nowDate = ⟨z.instantOf (days (dayOf offset u)), false⟩ := by
    rw [← hday]
    exact DateTime.midnight_eq z _
  have hu := DateTime.epochDay_ofMicros offset u
  rw [hmid]
  unfold dayOf
  refine h.instantOf_dayStart ?_ ?_
  · rw [hu]
    simp only [DateTime.dayStart, days, microsecondsPerDay]
    omega
  · rw [hu]
    simp only [DateTime.dayStart, days, microsecondsPerDay]
    omega

/-- A value far from the window is on its side of every midnight in it. -/
theorem Steady.prev_cases (h : Steady z offset task u u) {prev : DateTime}
    (hprev : prev.isUtc = false) :
    (prev.microsecondsSinceEpoch < u - days 13)
      ∨ (prev.epochDay z = prev.epochDay (.fixed offset)
        ∧ (⟨z.instantOf (days (prev.epochDay z)), false⟩ : DateTime)
          = DateTime.dayStart offset (prev.epochDay z))
      ∨ u + days 39 < prev.microsecondsSinceEpoch := by
  by_cases hlo : prev.microsecondsSinceEpoch < u - days 13
  · exact .inl hlo
  by_cases hhi : u + days 39 < prev.microsecondsSinceEpoch
  · exact .inr (.inr hhi)
  have hday : prev.epochDay z = prev.epochDay (.fixed offset) := by
    refine h.epochDay hprev ?_ ?_
    · simp only [days, microsecondsPerDay] at *
      omega
    · simp only [days, microsecondsPerDay] at *
      omega
  have hfixed : prev.epochDay (.fixed offset)
      = (prev.microsecondsSinceEpoch + offset.seconds * microsecondsPerSecond)
        / microsecondsPerDay := by
    rw [DateTime.epochDay, DateTime.wallClock_fixed offset _ hprev]
  refine .inr (.inl ⟨hday, h.instantOf_dayStart ?_ ?_⟩)
  · rw [hday, hfixed]
    simp only [DateTime.dayStart, days, microsecondsPerDay] at *
    omega
  · rw [hday, hfixed]
    simp only [DateTime.dayStart, days, microsecondsPerDay] at *
    omega

/-- Where a value is far from the window, so is its day. -/
theorem days_far (offset : UtcOffset) (z : Zone) (prev : DateTime) (u : ℤ) :
    (prev.microsecondsSinceEpoch < u - days 13 → prev.epochDay z + 11 ≤ dayOf offset u)
      ∧ (u + days 39 < prev.microsecondsSinceEpoch → dayOf offset u + 36 ≤ prev.epochDay z) := by
  have hu := DateTime.epochDay_ofMicros offset u
  have hwall := prev.wallClock_bounds z
  have hl := offset.lower
  have hr := offset.upper
  unfold dayOf
  rw [hu]
  simp only [DateTime.epochDay, days, microsecondsPerDay, microsecondsPerSecond] at *
  omega

/-- The weekly test counts the days right, as far as it goes. -/
theorem daysBetween_steady (h : Steady z offset task u u) {prev : DateTime}
    (hprev : prev.isUtc = false) :
    7 ≤ daysBetween z prev (clockOf z u).now ↔ prev.epochDay z + 7 ≤ dayOf offset u := by
  obtain ⟨hday, hnow⟩ := h.nowDate
  obtain ⟨hbefore, hafter⟩ := days_far offset z prev u
  have hu := DateTime.epochDay_ofMicros offset u
  change dayOf offset u = _ at hu
  have hl := offset.lower
  have hr := offset.upper
  have hwall := prev.wallClock_bounds z
  obtain ⟨k, hk, hklo, hkhi⟩ := z.resolves (days (prev.epochDay z))
  have hcount : daysBetween z prev (clockOf z u).now = roundDiv24 (inHours
      ((DateTime.dayStart offset (dayOf offset u)).difference
        ⟨z.instantOf (days (prev.epochDay z)), false⟩)) := by
    unfold daysBetween
    rw [← DateTime.midnight_eq z prev, ← hnow]
    rfl
  rw [hcount]
  -- far from the window a bound on the hours is enough, in it the days come out whole
  rcases h.prev_cases hprev with hlo | ⟨-, hmid⟩ | hhi
  · have hlong : days 7 ≤ (DateTime.dayStart offset (dayOf offset u)).difference
        ⟨z.instantOf (days (prev.epochDay z)), false⟩ := by
      simp only [DateTime.difference, DateTime.dayStart, DateTime.epochDay, days,
        microsecondsPerDay, microsecondsPerSecond, hk] at *
      omega
    have hround := roundDiv24_inHours_mono hlong
    rw [roundDiv24_inHours_days] at hround
    exact iff_of_true hround (by have := hbefore hlo; omega)
  · have hwhole : (DateTime.dayStart offset (dayOf offset u)).difference
        (DateTime.dayStart offset (prev.epochDay z))
        = days (dayOf offset u - prev.epochDay z) := by
      simp only [DateTime.difference, DateTime.dayStart, days]
      ring
    rw [hmid, hwhole, roundDiv24_inHours_days]
    omega
  · have hshort : (DateTime.dayStart offset (dayOf offset u)).difference
        ⟨z.instantOf (days (prev.epochDay z)), false⟩ ≤ days 0 := by
      simp only [DateTime.difference, DateTime.dayStart, DateTime.epochDay, days,
        microsecondsPerDay, microsecondsPerSecond, hk] at *
      omega
    have hround := roundDiv24_inHours_mono hshort
    rw [roundDiv24_inHours_days] at hround
    exact iff_of_false (by omega) (by have := hafter hhi; omega)

/-- The reward test sees the two calendar days. -/
theorem giveMoney_steady (h : Steady z offset task u u)
    (hprev : task.prevCompletionTime.isUtc = false) :
    giveMoney z (clockOf z u) task
      = rewardDue task.repeats (task.prevCompletionTime.epochDay z) (dayOf offset u) := by
  obtain ⟨hday, hnow⟩ := h.nowDate
  have hnowDay : (clockOf z u).now.epochDay z = dayOf offset u := hday
  have hbefore : task.prevCompletionTime.isBefore (clockOf z u).nowDate
      = decide (task.prevCompletionTime.epochDay z < dayOf offset u) := by
    rw [hnow]
    obtain ⟨hbefore, hafter⟩ := days_far offset z task.prevCompletionTime u
    have hu := DateTime.epochDay_ofMicros offset u
    change dayOf offset u = _ at hu
    rcases h.prev_cases hprev with hlo | ⟨hsame, -⟩ | hhi
    · rw [DateTime.isBefore, decide_eq_decide]
      refine iff_of_true ?_ (by have := hbefore hlo; omega)
      simp only [DateTime.dayStart, days, microsecondsPerDay] at *
      omega
    · rw [DateTime.isBefore_dayStart offset _ _ hprev, hsame]
    · rw [DateTime.isBefore, decide_eq_decide]
      refine iff_of_false ?_ (by have := hafter hhi; omega)
      simp only [DateTime.dayStart, days, microsecondsPerDay] at *
      omega
  cases hr : task.repeats with
  | never => simp only [giveMoney, rewardDue, hr]
  | daily => simp only [giveMoney, rewardDue, hr, hbefore]
  | weekdays => simp only [giveMoney, rewardDue, hr, hbefore]
  | weekends => simp only [giveMoney, rewardDue, hr, hbefore]
  | monthly => simp only [giveMoney, rewardDue, hr, DateTime.month, hnowDay]
  | weekly =>
      have hcount := daysBetween_steady h hprev
      simp only [giveMoney, rewardDue, hr, DateTime.weekday, hnowDay]
      split
      · rw [eq_comm, decide_eq_true_eq]
        omega
      · rw [decide_eq_decide, hcount]
        omega

/-! ## The next date -/

/-- Clocks with one next date of the loop have one next date. -/
theorem findNextTime_congr {c c' : Clock} (h : nextDate z c task = nextDate z c' task) :
    findNextTime z c task = findNextTime z c' task := by
  unfold findNextTime
  rw [h]

/-- Setting the time of day keeps a day of the window. -/
theorem Steady.placedDay_eq (h : Steady z offset task s t) {n : ℤ}
    (hlo : min s task.date.microsecondsSinceEpoch - days 14
      ≤ (DateTime.dayStart offset n).microsecondsSinceEpoch)
    (hhi : (DateTime.dayStart offset (n + 1)).microsecondsSinceEpoch
      ≤ max t task.date.microsecondsSinceEpoch + days 40) :
    DaylightSearch.placedDay z task n = n := by
  unfold DaylightSearch.placedDay
  split
  · next time _ _ =>
    have hh := time.hour_bounds z
    have hm := time.minute_bounds z
    have hinstant := h.instantOf_wall
      (w := days n + time.hour z * microsecondsPerHour + time.minute z * microsecondsPerMinute)
      (by simp only [DateTime.dayStart, days, microsecondsPerDay, microsecondsPerHour,
            microsecondsPerMinute] at *; omega)
      (by simp only [DateTime.dayStart, days, microsecondsPerDay, microsecondsPerHour,
            microsecondsPerMinute] at *; omega)
    rw [hinstant, h.epochDay rfl, DateTime.epochDay_ofMicros]
    · simp only [days, microsecondsPerDay, microsecondsPerHour, microsecondsPerMinute] at *
      omega
    · simp only [DateTime.ofMicros, DateTime.dayStart, days, microsecondsPerDay,
        microsecondsPerHour, microsecondsPerMinute] at *
      omega
    · simp only [DateTime.ofMicros, DateTime.dayStart, days, microsecondsPerDay,
        microsecondsPerHour, microsecondsPerMinute] at *
      omega
  · rfl

/-- `findNextTime` lies on the day of the next occurrence. -/
theorem findNextTime_steady (h : Steady z offset task u u) (hwell : task.WellFormed)
    (hdate : task.date.isUtc = false) :
    ∃ x v, nextDate z (clockOf z u) task = some (.ofMicros x)
      ∧ IsNext (occurrences offset task)
          (DateTime.dayStart offset (dayOf offset u)).microsecondsSinceEpoch x
      ∧ findNextTime z (clockOf z u) task = .ok v ∧ v.epochDay z = dayOf offset x := by
  obtain ⟨hday, hnow⟩ := h.nowDate
  have hnow' : (clockOf (.fixed offset) u).nowDate = DateTime.dayStart offset (dayOf offset u) :=
    DateTime.midnight_fixed offset _
  have hu := DateTime.epochDay_ofMicros offset u
  change dayOf offset u = _ at hu
  -- the two values the loop goes between
  have hends : ∀ t ∈ [loopFrom (clockOf z u) task, loopBound (clockOf z u) task],
      t.isUtc = false ∧ min u task.date.microsecondsSinceEpoch - days 1 ≤ t.microsecondsSinceEpoch
        ∧ t.microsecondsSinceEpoch ≤ max u task.date.microsecondsSinceEpoch := by
    have hmid : ∀ t ∈ [task.date, (clockOf z u).nowDate], t.isUtc = false
        ∧ min u task.date.microsecondsSinceEpoch - days 1 ≤ t.microsecondsSinceEpoch
        ∧ t.microsecondsSinceEpoch ≤ max u task.date.microsecondsSinceEpoch := by
      rw [hnow]
      simp only [List.forall_mem_cons, List.not_mem_nil, false_implies, implies_true, and_true]
      refine ⟨⟨hdate, ?_, ?_⟩, rfl, ?_, ?_⟩
      all_goals simp only [DateTime.dayStart, days, microsecondsPerDay] at *
      all_goals omega
    simp only [List.forall_mem_cons, List.not_mem_nil, false_implies, implies_true, and_true] at *
    unfold loopFrom loopBound
    cases task.repeats with
    | daily | weekdays | weekends => exact ⟨hmid.2, hmid.1⟩
    | weekly | monthly | never => exact hmid
  simp only [List.forall_mem_cons, List.not_mem_nil, false_implies, implies_true, and_true] at hends
  obtain ⟨⟨hutc, hlo, hhi⟩, -, -, hbound⟩ := hends
  have hnarrow : z.SteadyOn offset (min u task.date.microsecondsSinceEpoch - days 2)
      (max u task.date.microsecondsSinceEpoch + days 33) := by
    refine h.mono ?_ ?_ <;> simp only [days, microsecondsPerDay] <;> omega
  obtain ⟨hsame, hrange⟩ := nextDate_steady hnarrow hutc
    (by simp only [days, microsecondsPerDay] at *; omega)
    (by simp only [days, microsecondsPerDay] at *; omega)
    (by simp only [days, microsecondsPerDay] at *; omega)
  obtain ⟨x, hx, hnext⟩ := nextDate_isNext offset (.ofMicros u) task hdate
  have hfixed : nextDate (.fixed offset) (clockOf z u) task = some ⟨x, false⟩ := by
    rw [← hx]
    unfold nextDate
    rw [hnow, ← hnow']
    rfl
  have hfound : nextDate z (clockOf z u) task = some (.ofMicros x) := hsame.trans hfixed
  obtain ⟨hxlo, hxhi⟩ := hrange _ hfound
  obtain ⟨v, hv, hplaced⟩ := DaylightSearch.findNextTime_placed (c := clockOf z u) hwell hfound
  have hxday : (DateTime.ofMicros x).epochDay z = dayOf offset x := by
    refine h.epochDay rfl ?_ ?_
    · simp only [DateTime.ofMicros, days, microsecondsPerDay] at *
      omega
    · simp only [DateTime.ofMicros, days, microsecondsPerDay] at *
      omega
  refine ⟨x, v, hfound, hnext, hv, ?_⟩
  rw [hplaced, hxday]
  have hxd := DateTime.epochDay_ofMicros offset x
  change dayOf offset x = _ at hxd
  refine h.placedDay_eq ?_ ?_
  · simp only [DateTime.ofMicros, DateTime.dayStart, days, microsecondsPerDay] at *
    omega
  · simp only [DateTime.ofMicros, DateTime.dayStart, days, microsecondsPerDay] at *
    omega

end Clocks

end AquaFocus.SteadyClock
