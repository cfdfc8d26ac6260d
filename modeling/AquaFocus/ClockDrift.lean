/-
A process that outlives the day it was started on.

`now` and `nowDate` are read once in a process, so a completion at instant `t`
goes by the clock of an earlier instant `s`. It goes right when it does what a
process started at `t` would do, and moves the task past the day of `t`
(`CompletesAlike`).

Whatever the zone, only the calendar day of `s` matters (`sameDay_agrees`), and
for a task that does not repeat not even that (`completesAlike_of_never`). While
the zone keeps its offset, the next date is the next occurrence after that day's
midnight, and a stale clock goes right exactly when nothing happened between the
two days: the reward test answers alike on both, and no occurrence of the task
lies from the one midnight to the end of the other day (`completesAlike_iff_quiet`).
-/
import AquaFocus.SteadyClock

set_option autoImplicit false

open Dart Loop

namespace AquaFocus.ClockDrift

open AquaFocus.Reschedule AquaFocus.SteadyClock

/-! ## The comparison -/

/-- Completing `task` at instant `t`, with a clock read at `s`, does what the
calendar day of `t` asks for. -/
structure CompletesAlike (z : Zone) (task : AppTask) (s t : ℤ) : Prop where
  verdict : giveMoney z (clockOf z s) task = giveMoney z (clockOf z t) task
  credit : coins z (clockOf z s) task = coins z (clockOf z t) task
  next : nextTimeOf z (clockOf z s) task = nextTimeOf z (clockOf z t) task
  later : ∀ next, nextTimeOf z (clockOf z s) task = .ok (some next) →
    (DateTime.ofMicros t).epochDay z < next.epochDay z

/-! ## Any zone -/

/-- The test and the search see no more of a clock than its calendar day. -/
theorem sameDay_agrees (z : Zone) (task : AppTask) {s t : ℤ}
    (h : (DateTime.ofMicros s).epochDay z = (DateTime.ofMicros t).epochDay z) :
    giveMoney z (clockOf z s) task = giveMoney z (clockOf z t) task
      ∧ coins z (clockOf z s) task = coins z (clockOf z t) task
      ∧ nextTimeOf z (clockOf z s) task = nextTimeOf z (clockOf z t) task := by
  have hdate : (clockOf z s).nowDate = (clockOf z t).nowDate := by
    simp only [clockOf, Clock.read, DateTime.midnight_eq, h]
  have hdays : daysBetween z task.prevCompletionTime (clockOf z s).now
      = daysBetween z task.prevCompletionTime (clockOf z t).now := by
    simp only [clockOf, Clock.read, daysBetween, DateTime.midnight_eq, h]
  have hweekday : (clockOf z s).now.weekday z = (clockOf z t).now.weekday z :=
    congrArg Civil.weekdayOf h
  have hmonth : (clockOf z s).now.month z = (clockOf z t).now.month z :=
    congrArg Civil.monthOf h
  -- every field of a clock that is read is a function of its day
  have hverdict : giveMoney z (clockOf z s) task = giveMoney z (clockOf z t) task := by
    unfold giveMoney
    rw [hdate, hdays, hweekday, hmonth]
  have hnext : findNextTime z (clockOf z s) task = findNextTime z (clockOf z t) task := by
    unfold findNextTime nextDate
    rw [hdate]
  refine ⟨hverdict, ?_, ?_⟩
  · unfold coins
    rw [hverdict]
  · unfold nextTimeOf
    rw [hnext]

/-- The end of a task that does not repeat asks no clock. -/
theorem completesAlike_of_never (z : Zone) {task : AppTask} (h : task.repeats = .never)
    (s t : ℤ) : CompletesAlike z task s t := by
  have hpaid : ∀ c, giveMoney z c task = true := fun c => giveMoney_of_never h
  have hnone : ∀ c, nextTimeOf z c task = .ok none := fun c => nextTimeOf_of_never h
  refine ⟨by rw [hpaid, hpaid], ?_, by rw [hnone, hnone], ?_⟩
  · unfold coins
    rw [hpaid, hpaid]
  · intro next hnext
    rw [hnone] at hnext
    exact absurd (Except.ok.inj hnext) (by simp)

/-! ## A zone that keeps its offset -/

section Steady

variable {z : Zone} {offset : UtcOffset} {task : AppTask} {s t : ℤ}

/-- Nothing of the task falls between the midnight of the day of `s` and the end
of the day of `t`. -/
def NoOccurrence (offset : UtcOffset) (task : AppTask) (s t : ℤ) : Prop :=
  ∀ x ∈ occurrences offset task,
    ¬ ((DateTime.dayStart offset (dayOf offset s)).microsecondsSinceEpoch < x
      ∧ x < (DateTime.dayStart offset (dayOf offset t + 1)).microsecondsSinceEpoch)

/-- The reward test answers alike on the days of `s` and `t`. -/
def SameVerdict (z : Zone) (offset : UtcOffset) (task : AppTask) (s t : ℤ) : Prop :=
  rewardDue task.repeats (task.prevCompletionTime.epochDay z) (dayOf offset s)
    = rewardDue task.repeats (task.prevCompletionTime.epochDay z) (dayOf offset t)

/-- A day is after another exactly when its instants are not before the next midnight. -/
theorem dayOf_lt_iff {x : ℤ} :
    dayOf offset t < dayOf offset x
      ↔ (DateTime.dayStart offset (dayOf offset t + 1)).microsecondsSinceEpoch ≤ x := by
  unfold dayOf
  rw [DateTime.epochDay_ofMicros, DateTime.epochDay_ofMicros]
  simp only [DateTime.dayStart, days, microsecondsPerDay]
  omega

/-- The next date of a stale clock is past the day of `t` exactly when nothing of
the task falls before; and then it is the next date of a fresh clock. -/
theorem next_agrees_iff (h : Steady z offset task s t) (hwell : task.WellFormed)
    (hdate : task.date.isUtc = false) (hst : s ≤ t) :
    (findNextTime z (clockOf z s) task = findNextTime z (clockOf z t) task
      ∧ ∀ next, findNextTime z (clockOf z s) task = .ok next → dayOf offset t < next.epochDay z)
      ↔ NoOccurrence offset task s t := by
  obtain ⟨x, v, hfound, hxnext, hv, hvday⟩ :=
    findNextTime_steady (h.at le_rfl hst) hwell hdate
  obtain ⟨y, w, hfound', hynext, hw, -⟩ := findNextTime_steady (h.at hst le_rfl) hwell hdate
  have hdays : dayOf offset s ≤ dayOf offset t := DateTime.epochDay_mono offset rfl rfl hst
  constructor
  · rintro ⟨-, hlater⟩ u hu ⟨hsu, hut⟩
    -- an occurrence in between would be next for the stale clock, and not past the day of `t`
    have hxt := hlater _ hv
    rw [hvday, dayOf_lt_iff] at hxt
    have hxu : x ≤ u := hxnext.le hu hsu
    omega
  · intro hno
    -- the next occurrence is past the day of `t`, so it is also the next after `t`
    have hxt : (DateTime.dayStart offset (dayOf offset t + 1)).microsecondsSinceEpoch ≤ x := by
      by_contra hlt
      exact hno x hxnext.mem ⟨hxnext.lt, by omega⟩
    have hstart : (DateTime.dayStart offset (dayOf offset s)).microsecondsSinceEpoch
        ≤ (DateTime.dayStart offset (dayOf offset t)).microsecondsSinceEpoch :=
      (dayStart_le_dayStart offset).mpr hdays
    have hxy : x = y := by
      refine le_antisymm (hxnext.le hynext.mem (lt_of_le_of_lt hstart hynext.lt))
        (hynext.le hxnext.mem (lt_of_lt_of_le ?_ hxt))
      exact (dayStart_lt_dayStart offset).mpr (Int.lt_succ _)
    refine ⟨findNextTime_congr (by rw [hfound, hfound', hxy]), ?_⟩
    intro next hnext
    rw [← Except.ok.inj (hv.symm.trans hnext), hvday]
    exact dayOf_lt_iff.mpr hxt

/-- One stale clock. -/
theorem completesAlike_iff (h : Steady z offset task s t) (hwell : task.WellFormed)
    (hdate : task.date.isUtc = false) (hprev : task.prevCompletionTime.isUtc = false)
    (hst : s ≤ t) :
    CompletesAlike z task s t
      ↔ task.repeats = .never ∨ SameVerdict z offset task s t ∧ NoOccurrence offset task s t := by
  have hverdict : giveMoney z (clockOf z s) task = giveMoney z (clockOf z t) task
      ↔ SameVerdict z offset task s t := by
    unfold SameVerdict
    rw [giveMoney_steady (h.at le_rfl hst) hprev, giveMoney_steady (h.at hst le_rfl) hprev]
  by_cases hr : task.repeats = .never
  · exact iff_of_true (completesAlike_of_never z hr s t) (.inl hr)
  · have hagrees := next_agrees_iff h hwell hdate hst
    have hday : (DateTime.ofMicros t).epochDay z = dayOf offset t := (h.at hst le_rfl).nowDate.1
    obtain ⟨x, hx⟩ := findNextTime_ok z (clockOf z s) hwell
    obtain ⟨y, hy⟩ := findNextTime_ok z (clockOf z t) hwell
    have hxs : nextTimeOf z (clockOf z s) task = .ok (some x) := by
      rw [nextTimeOf_of_ne hr, hx]
      rfl
    have hyt : nextTimeOf z (clockOf z t) task = .ok (some y) := by
      rw [nextTimeOf_of_ne hr, hy]
      rfl
    rw [hx, hy] at hagrees
    constructor
    · intro hc
      refine .inr ⟨hverdict.mp hc.verdict, hagrees.mp ⟨?_, ?_⟩⟩
      · have hxy := hc.next
        rw [hxs, hyt] at hxy
        rw [Option.some.inj (Except.ok.inj hxy)]
      · intro next hnext
        rw [← hday]
        apply hc.later next
        rw [hxs, Except.ok.inj hnext]
    · rintro (hnever | ⟨hsame, hno⟩)
      · exact absurd hnever hr
      · obtain ⟨hxy, hlater⟩ := hagrees.mpr hno
        refine ⟨hverdict.mpr hsame, ?_, ?_, ?_⟩
        · unfold coins
          rw [hverdict.mpr hsame]
        · rw [hxs, hyt, Except.ok.inj hxy]
        · intro next hnext
          rw [hxs, Except.ok.injEq, Option.some.injEq] at hnext
          rw [hday]
          exact hlater next (by rw [hnext])

/-- A longer gap holds the shorter one. -/
theorem NoOccurrence.mono {s' : ℤ} (h : NoOccurrence offset task s t) (hss : s ≤ s') :
    NoOccurrence offset task s' t := by
  intro x hx ⟨hlt, hbefore⟩
  refine h x hx ⟨lt_of_le_of_lt ?_ hlt, hbefore⟩
  have hdays : dayOf offset s ≤ dayOf offset s' := DateTime.epochDay_mono offset rfl rfl hss
  simp only [DateTime.dayStart, days, microsecondsPerDay]
  omega

end Steady

end AquaFocus.ClockDrift
