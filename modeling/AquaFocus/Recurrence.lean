/-
The days of a repeating task, over whole runs of completions.

A completion moves a task on from the date it has at that time, so what a run of
them visits could drift. It does not: the days after each date are those of the
first one that are left (`mem_series_of_mem`), and a run is a walk along the days
of the first date, with the days of its completions for bounds
(`completions_walk`).

A weekly task is taken to be dated at a midnight, as every completion leaves it.
-/
import AquaFocus.Reward
import AquaFocus.MonthlyTasks
import AquaFocus.Lib.Walks
import Mathlib.Data.List.Forall2

set_option autoImplicit false

open Dart Loop

namespace AquaFocus.Recurrence

open Reschedule (Admits monthStep lt_monthStep occurrences placed iterate_week dayStart_lt_dayStart)
open NextDay (timeOfDay)

/-! ## The days of a rule -/

/-- The days a task dated on day `n` falls on later. -/
def Series : Repeat → ℤ → Set ℤ
  | .weekly, n => {m | ∃ k : ℕ, 1 ≤ k ∧ m = n + 7 * k}
  | .monthly, n | .never, n => orbit monthStep (monthStep n)
  | repeats, n => {m | Admits repeats m ∧ n < m}

/-- The elements of an orbit after one of them are the orbit from there on. -/
theorem mem_orbit_iff {f : ℤ → ℤ} (hf : ∀ x, x < f x) {s x : ℤ} (hx : x ∈ orbit f s) {y : ℤ} :
    y ∈ orbit f (f x) ↔ y ∈ orbit f s ∧ x < y := by
  obtain ⟨k, rfl⟩ := hx
  constructor
  · rintro ⟨j, rfl⟩
    refine ⟨⟨j + (k + 1), ?_⟩, (hf _).trans_le (orbit_le hf _ j)⟩
    rw [Function.iterate_add_apply, Function.iterate_succ_apply']
  · rintro ⟨⟨j, rfl⟩, hlt⟩
    have hkj : k < j := by
      by_contra hle
      obtain ⟨i, rfl⟩ := Nat.exists_eq_add_of_le (not_lt.mp hle)
      rw [Nat.add_comm, Function.iterate_add_apply] at hlt
      exact absurd hlt (not_lt.mpr (orbit_le hf _ i))
    obtain ⟨i, rfl⟩ := Nat.exists_eq_add_of_lt hkj
    refine ⟨i, ?_⟩
    rw [show k + i + 1 = i + (k + 1) by omega, Function.iterate_add_apply,
      Function.iterate_succ_apply']

/-- **The days after a day of the series** are those of the series that are left. -/
theorem mem_series_of_mem {repeats : Repeat} {n m x : ℤ} (hm : m ∈ Series repeats n) :
    x ∈ Series repeats m ↔ x ∈ Series repeats n ∧ m < x := by
  cases repeats with
  | daily | weekdays | weekends =>
      obtain ⟨-, hnm⟩ := hm
      exact ⟨fun hx => ⟨⟨hx.1, hnm.trans hx.2⟩, hx.2⟩, fun hx => ⟨hx.1.1, hx.2⟩⟩
  | weekly =>
      obtain ⟨k, hk, rfl⟩ := hm
      -- the weeks from a later one on are the same weeks
      constructor
      · rintro ⟨j, hj, rfl⟩
        exact ⟨⟨k + j, by omega, by push_cast; ring⟩, by omega⟩
      · rintro ⟨⟨j, hj, rfl⟩, hlt⟩
        exact ⟨j - k, by omega, by omega⟩
  | monthly | never => exact mem_orbit_iff lt_monthStep hm

/-! ## The next date, as a day -/

variable {offset : UtcOffset}

/-- Occurrences are the midnights of the series. -/
theorem mem_occurrences {task : AppTask}
    (hweekly : task.repeats = .weekly →
      task.date = DateTime.dayStart offset (task.date.epochDay (.fixed offset))) {x : ℤ} :
    x ∈ occurrences offset task
      ↔ ∃ n ∈ Series task.repeats (task.date.epochDay (.fixed offset)),
        x = (DateTime.dayStart offset n).microsecondsSinceEpoch := by
  unfold occurrences
  cases hr : task.repeats with
  | daily | weekdays | weekends =>
      exact ⟨fun ⟨n, hadmits, hlt, hx⟩ => ⟨n, ⟨hadmits, hlt⟩, hx⟩,
        fun ⟨n, ⟨hadmits, hlt⟩, hx⟩ => ⟨n, hadmits, hlt, hx⟩⟩
  | monthly | never => exact Iff.rfl
  | weekly =>
      -- the weekly branch adds durations, to a midnight
      have hdate := congrArg DateTime.microsecondsSinceEpoch (hweekly hr)
      have hweeks : ∀ k : ℕ, task.date.microsecondsSinceEpoch + (k + 1 : ℕ) * days 7
          = (DateTime.dayStart offset (task.date.epochDay (.fixed offset)
            + 7 * (k + 1 : ℕ))).microsecondsSinceEpoch := by
        intro k
        rw [hdate]
        simp only [DateTime.dayStart, days]
        push_cast
        ring
      constructor
      · rintro ⟨k, rfl⟩
        refine ⟨_, ⟨k + 1, by omega, rfl⟩, ?_⟩
        rw [iterate_week, ← hweeks]
        push_cast
        ring
      · rintro ⟨n, ⟨k, hk, rfl⟩, rfl⟩
        obtain ⟨j, rfl⟩ := Nat.exists_eq_add_of_le' hk
        refine ⟨j, ?_⟩
        rw [iterate_week, ← hweeks]
        push_cast
        ring

/-- `findNextTime` finds the first day of the series after today, at the task's time
of day. -/
theorem findNextTime_day (offset : UtcOffset) (now : DateTime) {task : AppTask}
    (h : task.WellFormed) (hdate : task.date.isUtc = false)
    (hweekly : task.repeats = .weekly →
      task.date = DateTime.dayStart offset (task.date.epochDay (.fixed offset))) :
    ∃ t n, findNextTime (.fixed offset) (.read (.fixed offset) now) task = .ok t
      ∧ IsNext (Series task.repeats (task.date.epochDay (.fixed offset)))
          (now.epochDay (.fixed offset)) n
      ∧ t = placed offset task (DateTime.dayStart offset n).microsecondsSinceEpoch := by
  obtain ⟨x, hx, hnext⟩ := Reschedule.findNextTime_isNext offset now h hdate
  obtain ⟨n, hn, rfl⟩ := (mem_occurrences hweekly).mp hnext.mem
  refine ⟨_, n, hx, ⟨⟨hn, (dayStart_lt_dayStart offset).mp hnext.lt⟩, fun m hm => ?_⟩, rfl⟩
  have hle := hnext.le ((mem_occurrences hweekly).mpr ⟨m, hm.1, rfl⟩)
    ((dayStart_lt_dayStart offset).mpr hm.2)
  exact (Reschedule.dayStart_le_dayStart offset).mp hle

theorem lt_of_mem_series {repeats : Repeat} {n m : ℤ} (h : m ∈ Series repeats n) : n < m := by
  cases repeats with
  | daily | weekdays | weekends => exact h.2
  | weekly =>
      obtain ⟨k, hk, rfl⟩ := h
      omega
  | monthly | never =>
      obtain ⟨k, rfl⟩ := h
      exact (lt_monthStep n).trans_le (orbit_le lt_monthStep _ k)

/-! ## One completion -/

/-- The day a document is dated on. -/
def dueDay (offset : UtcOffset) (d : TaskDoc) : ℤ :=
  (DateTime.ofMillis d.date).epochDay (.fixed offset)

/-- A repeating task, whose weeks count from a midnight. -/
structure Repeats (offset : UtcOffset) (d : TaskDoc) : Prop where
  wellFormed : d.WellFormed
  repeats : d.repeats ≠ .never
  weekly : d.repeats = .weekly →
    DateTime.ofMillis d.date = DateTime.dayStart offset (dueDay offset d)

/-- The same task on another day: at a midnight, open, by the same rule, and at the
same time of that day. -/
structure MovedTo (offset : UtcOffset) (d : TaskDoc) (n : ℤ) (d' : TaskDoc) : Prop where
  date : DateTime.ofMillis d'.date = DateTime.dayStart offset n
  isCompleted : d'.isCompleted = false
  repeats : d'.repeats = d.repeats
  hasTime : d'.hasTime = d.hasTime
  time : d.hasTime = true → ∃ time, d'.time = some time
    ∧ (DateTime.ofMillis time).wallClock (.fixed offset)
      = days n + timeOfDay offset (.fromDS "" d)
  timeOfDay : timeOfDay offset (.fromDS "" d') = timeOfDay offset (.fromDS "" d)

/-- A value whose clock shows whole seconds is stored as it is. -/
theorem ofMillis_of_seconds {t : DateTime} (ht : t.isUtc = false) {k : ℤ}
    (hk : t.wallClock (.fixed offset) = seconds k) :
    DateTime.ofMillis t.millisecondsSinceEpoch = t := by
  rw [DateTime.wallClock_fixed offset t ht] at hk
  obtain ⟨us, utc⟩ := t
  cases ht
  have hus : us = microsecondsPerMillisecond * ((k - offset.seconds) * 1000) := by
    simp only [seconds, microsecondsPerSecond, microsecondsPerMillisecond] at *
    omega
  have hdiv : us.tdiv microsecondsPerMillisecond = (k - offset.seconds) * 1000 := by
    rw [hus]
    exact Int.mul_tdiv_cancel_left _ (by decide)
  simp only [DateTime.ofMillis, DateTime.millisecondsSinceEpoch, hdiv, DateTime.mk.injEq, and_true]
  rw [hus, mul_comm]

/-- The time of day is a whole number of minutes within the day. -/
theorem timeOfDay_spec (offset : UtcOffset) (task : AppTask) :
    ∃ h mi : ℤ, (0 ≤ h ∧ h < 24) ∧ (0 ≤ mi ∧ mi < 60)
      ∧ timeOfDay offset task = h * microsecondsPerHour + mi * microsecondsPerMinute
      ∧ ∀ time, task.hasTime = true → task.time = some time →
        h = time.hour (.fixed offset) ∧ mi = time.minute (.fixed offset) := by
  unfold NextDay.timeOfDay
  split
  · next time _ htime =>
    refine ⟨_, _, time.hour_bounds _, time.minute_bounds _, rfl, fun other _ hother => ?_⟩
    rw [htime, Option.some.injEq] at hother
    rw [hother]
    exact ⟨rfl, rfl⟩
  · next hnone =>
    refine ⟨0, 0, by omega, by omega, by simp, fun time hhas htime => ?_⟩
    exact absurd htime (hnone time hhas)

theorem isUtc_placed (task : AppTask) (x : ℤ) : (placed offset task x).isUtc = false := by
  unfold placed
  split <;> rfl

/-- Rescheduled for day `n`, a task is the same task on that day. -/
theorem movedTo_docAfter (offset : UtcOffset) (c : Clock) (id : String) (d : TaskDoc) (n : ℤ) :
    MovedTo offset d n (docAfter (.fixed offset) c (.fromDS id d) d
      (some (placed offset (.fromDS id d)
        (DateTime.dayStart offset n).microsecondsSinceEpoch))) := by
  generalize ht : placed offset (.fromDS id d)
    (DateTime.dayStart offset n).microsecondsSinceEpoch = t
  have hwall : t.wallClock (.fixed offset) = days n + timeOfDay offset (.fromDS "" d) := by
    rw [← ht]
    exact NextDay.wallClock_placed offset (.fromDS id d) n
  have hday : t.epochDay (.fixed offset) = n := by
    rw [← ht, Reschedule.epochDay_placed]
    exact DateTime.epochDay_dayStart offset n
  obtain ⟨h, mi, hh, hmi, htime, -⟩ := timeOfDay_spec offset (.fromDS "" d)
  -- the milliseconds stored lose nothing
  have hstored : DateTime.ofMillis t.millisecondsSinceEpoch = t := by
    apply ofMillis_of_seconds (ht ▸ isUtc_placed _ _) (k := n * 86400 + h * 3600 + mi * 60)
    rw [hwall, htime]
    simp only [days, seconds, microsecondsPerDay, microsecondsPerHour, microsecondsPerMinute,
      microsecondsPerSecond]
    ring
  refine ⟨?_, rfl, rfl, rfl, fun hhas => ?_, ?_⟩
  · have hdate : (docAfter (.fixed offset) c (.fromDS id d) d (some t)).date
        = (t.midnight (.fixed offset)).millisecondsSinceEpoch := rfl
    rw [hdate, DateTime.midnight_fixed, hday, DateTime.ofMillis_dayStart]
  · refine ⟨t.millisecondsSinceEpoch, ?_, by rw [hstored, hwall]⟩
    simp [docAfter, nextDoc, rescheduled, TaskUpdate.apply, hhas]
  · by_cases hhas : d.hasTime = true
    · have hnew : (AppTask.fromDS "" (docAfter (.fixed offset) c (.fromDS id d) d (some t))).time
          = some t := by
        simp [docAfter, nextDoc, rescheduled, TaskUpdate.apply, hhas, hstored]
      obtain ⟨h', mi', -, -, htime', hfields⟩ := timeOfDay_spec offset
        (.fromDS "" (docAfter (.fixed offset) c (.fromDS id d) d (some t)))
      obtain ⟨rfl, rfl⟩ := hfields t hhas hnew
      rw [htime', htime]
      -- the clock shows the hour and the minute it was placed at
      rw [htime] at hwall
      simp only [DateTime.hour, DateTime.minute, hwall, days, microsecondsPerDay,
        microsecondsPerHour, microsecondsPerMinute]
      omega
    · have hnone : ∀ d' : TaskDoc, d'.hasTime = d.hasTime →
          timeOfDay offset (.fromDS "" d') = 0 := by
        intro d' hd'
        have hfalse : (AppTask.fromDS "" d').hasTime = false := by
          rw [AppTask.fromDS_hasTime, hd']
          simpa using hhas
        simp only [NextDay.timeOfDay, hfalse]
      refine Eq.trans (hnone _ ?_) (hnone d rfl).symm
      rfl

section Run

variable {κ : Type} [DecidableEq κ] {key : AppTask → κ} {id : String} {w : World κ} {d : TaskDoc}

/-- A completion moves the task to the first day of its series after today. -/
theorem completeAt_day (key : AppTask → κ) (hw : w.tasks id = some d) (h : Repeats offset d)
    (t : ℤ) :
    ∃ d' n, (completeAt key (.fixed offset) id t w).tasks id = some d'
      ∧ IsNext (Series d.repeats (dueDay offset d)) (dayOf offset t) n
      ∧ MovedTo offset d n d' ∧ Repeats offset d' := by
  have hread : (AppTask.fromDS id d).WellFormed := h.wellFormed.read id
  obtain ⟨next, w', hnext, hperform, htasks, -⟩ :=
    completion_spec key (.fixed offset) (.read (.fixed offset) (.ofMicros t)) hw h.wellFormed hread
  obtain ⟨u, n, hfind, hisNext, rfl⟩ :=
    findNextTime_day offset (DateTime.ofMicros t) hread rfl h.weekly
  have hsome : next = some (placed offset (.fromDS id d)
      (DateTime.dayStart offset n).microsecondsSinceEpoch) := by
    rw [nextTimeOf_of_ne h.repeats, hfind] at hnext
    exact (Except.ok.inj hnext).symm
  subst hsome
  have hmoved := movedTo_docAfter offset (.read (.fixed offset) (.ofMicros t)) id d n
  refine ⟨_, n, ?_, hisNext, hmoved, docAfter_wellFormed hread h.wellFormed _, h.repeats, ?_⟩
  · simp only [completeAt, hw, hperform, htasks, AppTask.fromDS_id, Function.update_self]
  · intro _
    rw [dueDay, hmoved.date, DateTime.epochDay_dayStart]

/-! ## Runs -/

/-- The documents a run of completions leaves, one after the other. -/
def docsAfter (key : AppTask → κ) (z : Zone) (id : String) : List ℤ → World κ → List TaskDoc
  | [], _ => []
  | t :: ts, w =>
      ((completeAt key z id t w).tasks id).toList
        ++ docsAfter key z id ts (completeAt key z id t w)

/-- A run of completions at the instants `ts`: the days it moves the task to go up,
each is the first day of the series after the one before and after its completion,
so what is left out was over by then, and a task completed each time by its day
falls on all of them; and it stays the same task. -/
structure Follows (offset : UtcOffset) (d : TaskDoc) (ts : List ℤ) (docs : List TaskDoc) :
    Prop where
  increasing : (dueDay offset d :: docs.map (dueDay offset)).Pairwise (· < ·)
  ahead : List.Forall₂ (fun t d' => dayOf offset t < dueDay offset d') ts docs
  mem : ∀ d' ∈ docs, dueDay offset d' ∈ Series d.repeats (dueDay offset d)
  skipped : ∀ n ∈ Series d.repeats (dueDay offset d), n ∉ docs.map (dueDay offset) →
    ∀ d' ∈ docs, n < dueDay offset d' → ∃ t ∈ ts, n ≤ dayOf offset t
  all : (∀ step ∈ ts.zip (d :: docs), dayOf offset step.1 ≤ dueDay offset step.2) →
    ∀ n ∈ Series d.repeats (dueDay offset d), ∀ d' ∈ docs, n ≤ dueDay offset d' →
      n ∈ docs.map (dueDay offset)
  moved : ∀ d' ∈ docs, MovedTo offset d (dueDay offset d') d'

omit [DecidableEq κ] in
theorem MovedTo.trans {d' d'' : TaskDoc} {m n : ℤ} (h : MovedTo offset d m d')
    (h' : MovedTo offset d' n d'') : MovedTo offset d n d'' where
  date := h'.date
  isCompleted := h'.isCompleted
  repeats := h'.repeats.trans h.repeats
  hasTime := h'.hasTime.trans h.hasTime
  time hhas := by
    rw [← h.timeOfDay]
    exact h'.time (h.hasTime.trans hhas)
  timeOfDay := h'.timeOfDay.trans h.timeOfDay

omit [DecidableEq κ] in
theorem MovedTo.dueDay_eq {d' : TaskDoc} {n : ℤ} (h : MovedTo offset d n d') :
    dueDay offset d' = n := by
  rw [dueDay, h.date, DateTime.epochDay_dayStart]

/-- A run is a walk along the days of the first date. -/
theorem walks_docsAfter (key : AppTask → κ) (hw : w.tasks id = some d) (h : Repeats offset d)
    (ts : List ℤ) :
    Walks (Series d.repeats (dueDay offset d)) (dueDay offset d) (ts.map (dayOf offset))
        ((docsAfter key (.fixed offset) id ts w).map (dueDay offset))
      ∧ ∀ d' ∈ docsAfter key (.fixed offset) id ts w, MovedTo offset d (dueDay offset d') d' := by
  induction ts generalizing w d with
  | nil => exact ⟨.nil, fun d' hd' => absurd hd' List.not_mem_nil⟩
  | cons t ts ih =>
      obtain ⟨d', n, hw', hnext, hmoved, hrepeats⟩ := completeAt_day key hw h t
      obtain ⟨hwalks, hrest⟩ := ih hw' hrepeats
      have hday : dueDay offset d' = n := hmoved.dueDay_eq
      rw [hday, hmoved.repeats] at hwalks
      have hleast : IsLeast {x | x ∈ Series d.repeats (dueDay offset d) ∧ dueDay offset d < x
          ∧ dayOf offset t < x} n :=
        ⟨⟨hnext.mem, lt_of_mem_series hnext.mem, hnext.lt⟩, fun x hx => hnext.le hx.1 hx.2.2⟩
      -- from here on the walk is along what is left of the first series
      have hleft := hwalks.congr fun x hx =>
        (mem_series_of_mem hnext.mem).trans (and_iff_left hx)
      rw [docsAfter, hw', Option.toList_some, List.singleton_append, List.map_cons, List.map_cons,
        hday]
      refine ⟨.cons hleast hleft, fun d'' hd'' => ?_⟩
      rcases List.mem_cons.mp hd'' with rfl | hd''
      · exact hday ▸ hmoved
      · exact hmoved.trans (hrest d'' hd'')

end Run

example : (docsAfter AppTask.id (.fixed .utc) "doc" [1654084800000000, 1655726400000000]
    (oneTask .weekly)).map (dueDay .utc) = [19151, 19165] := rfl

end AquaFocus.Recurrence
