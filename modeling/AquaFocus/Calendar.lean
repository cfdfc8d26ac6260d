/-
`lib/screens/Tasks/calendar_body.dart`: what the calendar shows, and the day a
task is added for.

A day or a range of days is looked up in the list the screen has loaded. The
days of a range are counted by a duration and made by counting on from the first
one, past the ends of months and years (`daysInRange_eq`).

A day that is tapped, alone or in a range, reaches the screen as a UTC midnight,
is offered to the form of a new task as it is, and is stored as an instant, which
is read back as a local time. West of Greenwich that is the evening before
(`appears_iff`).
-/
import AquaFocus.DayLookup
import AquaFocus.AddTask

set_option autoImplicit false

open Dart

namespace AquaFocus.Calendar

variable (z : Zone)

/-! ## Ranges of days -/

/-- `daysInRange`; `none` is the `RangeError` of a negative length. -/
def daysInRange (first last : DateTime) : Option (List DateTime) :=
  let dayCount := inDays (last.difference first) + 1
  if dayCount < 0 then none
  else some ((List.range dayCount.toNat).map fun index : ℕ =>
    .utc (first.year z) (first.month z) (first.day z + index) 0)

/-- `_getEventsForRange`. -/
def getEventsForRange (eventList : List AppTask) (start stop : DateTime) :
    Option (List AppTask) :=
  (daysInRange z start stop).map fun days =>
    days.flatMap fun d => getEventsForDay z (some d) eventList

variable {z}

/-- The days from `m` on. -/
theorem daysInRange_eq (z : Zone) {m n : ℤ} (h : m ≤ n) :
    daysInRange z (.utcDay m) (.utcDay n)
      = some ((List.range (n - m + 1).toNat).map fun index : ℕ => .utcDay (m + index)) := by
  have hcount : inDays ((DateTime.utcDay n).difference (.utcDay m)) + 1 = n - m + 1 := by
    have hdiff : (DateTime.utcDay n).difference (.utcDay m) = days (n - m) := (sub_mul n m _).symm
    rw [hdiff, inDays_days]
  have hday : ∀ index : ℕ, DateTime.utc ((DateTime.utcDay m).year z) ((DateTime.utcDay m).month z)
      ((DateTime.utcDay m).day z + index) 0 = .utcDay (m + index) := by
    intro index
    rw [DateTime.utc, Civil.dayNumber_add, zero_mul, add_zero]
    unfold DateTime.year DateTime.month DateTime.day
    rw [Civil.dayNumber_civil, DateTime.epochDay_utcDay]
    rfl
  unfold daysInRange
  simp only [hcount, hday]
  rw [if_neg (by omega)]

/-- The tasks of the days from `m` on. -/
theorem getEventsForRange_eq (z : Zone) (events : List AppTask) {m n : ℤ} (h : m ≤ n) :
    getEventsForRange z events (.utcDay m) (.utcDay n)
      = some ((List.range (n - m + 1).toNat).flatMap fun index : ℕ =>
          onDay z (m + index) events) := by
  rw [getEventsForRange, daysInRange_eq z h, Option.map_some, List.flatMap_map]
  simp only [getEventsForDay_eq_onDay, DateTime.epochDay_utcDay]

theorem count_onDay (n : ℤ) (events : List AppTask) (event : AppTask) :
    (onDay z n events).count event
      = if event.date.epochDay z = n then events.count event else 0 := by
  unfold onDay
  by_cases hday : event.date.epochDay z = n
  · rw [if_pos hday]
    exact List.count_filter (p := fun event : AppTask => decide (event.date.epochDay z = n))
      (decide_eq_true hday)
  · rw [if_neg hday, List.count_eq_zero]
    exact fun hmem => hday (of_decide_eq_true (List.mem_filter.mp hmem).2)

/-- A task is among those of the days from `m` on as often as it is in the list, if
its day is one of them. -/
theorem count_range (events : List AppTask) (m : ℤ) (event : AppTask) (k : ℕ) :
    ((List.range k).flatMap fun index : ℕ => onDay z (m + index) events).count event
      = if m ≤ event.date.epochDay z ∧ event.date.epochDay z < m + k then events.count event
        else 0 := by
  induction k with
  | zero =>
      rw [if_neg (by push_cast; omega)]
      rfl
  | succ k ih =>
      rw [List.range_succ, List.flatMap_append, List.count_append, ih, List.flatMap_singleton,
        count_onDay]
      push_cast
      split <;> split <;> split <;> omega

/-- **Range lookup**: the days of the range in increasing order, each once; the
tasks of each day in list order; and each task as often as it is in the list if
its date lies in the range, and not at all otherwise. -/
theorem getEventsForRange_covers (z : Zone) (events : List AppTask) {m n : ℤ} (h : m ≤ n) :
    ∃ days found, daysInRange z (.utcDay m) (.utcDay n) = some days
      ∧ getEventsForRange z events (.utcDay m) (.utcDay n) = some found
      ∧ days.Pairwise (fun d d' => d.microsecondsSinceEpoch < d'.microsecondsSinceEpoch)
      ∧ (∀ d, d ∈ days ↔ ∃ k, m ≤ k ∧ k ≤ n ∧ d = .utcDay k)
      ∧ found = days.flatMap (fun d => events.filter fun event =>
          decide (event.date.year z = d.year z ∧ event.date.month z = d.month z
            ∧ event.date.day z = d.day z))
      ∧ ∀ event, found.count event
          = if m ≤ event.date.epochDay z ∧ event.date.epochDay z ≤ n then events.count event
            else 0 := by
  refine ⟨_, _, daysInRange_eq z h, getEventsForRange_eq z events h, ?_, ?_, ?_, ?_⟩
  · apply List.pairwise_map.mpr
    refine List.pairwise_lt_range.imp fun {i j} hij => ?_
    simp only [DateTime.utcDay, days, microsecondsPerDay]
    omega
  · intro d
    simp only [List.mem_map, List.mem_range]
    constructor
    · rintro ⟨i, hi, rfl⟩
      exact ⟨m + i, by omega, by omega, rfl⟩
    · rintro ⟨k, hmk, hkn, rfl⟩
      exact ⟨(k - m).toNat, by omega, by congr 1; omega⟩
  · rw [List.flatMap_map]
    simp only [onDay, DateTime.sameDate_iff, DateTime.epochDay_utcDay]
  · intro event
    have hlen : ((n - m + 1).toNat : ℤ) = n - m + 1 := by omega
    rw [count_range, hlen]
    split <;> split <;> omega

/-- The last two days of February and the first of March, in a leap year. -/
theorem getEventsForRange_covers_leap :
    ∃ days found, daysInRange utc (.utcDay 19781) (.utcDay 19783) = some days
      ∧ getEventsForRange utc [.fromDS "doc" (swim .never)] (.utcDay 19781) (.utcDay 19783)
        = some found
      ∧ days.Pairwise (fun d d' => d.microsecondsSinceEpoch < d'.microsecondsSinceEpoch)
      ∧ (∀ d, d ∈ days ↔ ∃ k, 19781 ≤ k ∧ k ≤ 19783 ∧ d = .utcDay k)
      ∧ found = days.flatMap (fun d => [AppTask.fromDS "doc" (swim .never)].filter fun event =>
          decide (event.date.year utc = d.year utc ∧ event.date.month utc = d.month utc
            ∧ event.date.day utc = d.day utc))
      ∧ ∀ event, found.count event
          = if 19781 ≤ event.date.epochDay utc ∧ event.date.epochDay utc ≤ 19783 then
              [AppTask.fromDS "doc" (swim .never)].count event
            else 0 :=
  getEventsForRange_covers utc _ (by decide)

/-! ## The day a task is added for -/

/-- `_onDaySelected`, of which the screen keeps `_selectedDay`. -/
def onDaySelected (z : Zone) (selected : Option DateTime) (selectedDay : DateTime) :
    Option DateTime :=
  if isSameDay z selected (some selectedDay) then selected else some selectedDay

/-- What the calendar reports, as far as `_selectedDay` is concerned. -/
inductive Tap
  | daySelected (selectedDay : DateTime)
  | rangeSelected (focusedDay : DateTime)
deriving DecidableEq

def Tap.day : Tap → DateTime
  | daySelected selectedDay => selectedDay
  | rangeSelected focusedDay => focusedDay

/-- `_selectedDay` after a tap: `_onRangeSelected` sets it in any case. -/
def onTap (z : Zone) (selected : Option DateTime) : Tap → Option DateTime
  | .daySelected selectedDay => onDaySelected z selected selectedDay
  | .rangeSelected focusedDay => some focusedDay

/-- `_selectedDay` of a screen that was opened at `now`, after these taps. -/
def selectedAfter (z : Zone) (now : DateTime) (taps : List Tap) : Option DateTime :=
  taps.foldl (onTap z) (some now)

/-- The date the form offers, which is opened at `now`. -/
def initialDate (selectedDate : Option DateTime) (now : DateTime) : DateTime :=
  selectedDate.getD now

/-- A form whose date is left as it was offered. -/
def withInitialDate (form : TaskForm) (selectedDate : Option DateTime) (now : DateTime) :
    TaskForm :=
  { form with date := initialDate selectedDate now }

/-- A task of the list is found on the day `d` and on no other. -/
def Appears (z : Zone) (task : AppTask) (events : List AppTask) (d : DateTime) : Prop :=
  ∀ day, task ∈ getEventsForDay z (some day) events ↔ isSameDay z (some day) (some d) = true

theorem appears_utcDay_iff {task : AppTask} {events : List AppTask} (h : task ∈ events) (n : ℤ) :
    Appears z task events (.utcDay n) ↔ task.date.epochDay z = n := by
  unfold Appears
  simp only [mem_getEventsForDay, isSameDay_iff, h, true_and, DateTime.epochDay_utcDay]
  constructor
  · intro hday
    have hown := (hday (.utcDay (task.date.epochDay z))).mp (DateTime.epochDay_utcDay z _).symm
    rwa [DateTime.epochDay_utcDay] at hown
  · rintro rfl day
    exact eq_comm

theorem onDaySelected_some (z : Zone) (t : DateTime) (n : ℤ) :
    onDaySelected z (some t) (.utcDay n)
      = if n = t.epochDay z then some t else some (.utcDay n) := by
  have hsame : isSameDay z (some t) (some (.utcDay n)) = true ↔ n = t.epochDay z := by
    rw [isSameDay_iff, DateTime.epochDay_utcDay, eq_comm]
  simp only [onDaySelected, hsame]

theorem utcDay_injective : Function.Injective DateTime.utcDay := by
  intro m n h
  rw [← DateTime.epochDay_utcDay utc m, h, DateTime.epochDay_utcDay]

theorem selectedAfter_snoc (z : Zone) (now : DateTime) (taps : List Tap) (tap : Tap) :
    selectedAfter z now (taps ++ [tap]) = onTap z (selectedAfter z now taps) tap := by
  simp only [selectedAfter, List.foldl_append, List.foldl_cons, List.foldl_nil]

/-- The screen keeps the moment it was opened at as long as only that day is
tapped, and from then on the midnight of a day. -/
theorem selectedAfter_cases (z : Zone) (now : DateTime) {taps : List Tap}
    (hutc : ∀ tap ∈ taps, ∃ n, tap.day = .utcDay n) :
    (∀ tap ∈ taps, tap = .daySelected (.utcDay (now.epochDay z)))
        ∧ selectedAfter z now taps = some now
      ∨ (¬ ∀ tap ∈ taps, tap = .daySelected (.utcDay (now.epochDay z)))
        ∧ ∃ n, selectedAfter z now taps = some (.utcDay n) := by
  induction taps using List.reverseRecOn with
  | nil => exact .inl ⟨by simp, rfl⟩
  | append_singleton taps tap ih =>
      rw [List.forall_mem_append, List.forall_mem_singleton] at hutc
      obtain ⟨htaps, n, hn⟩ := hutc
      rw [List.forall_mem_append, List.forall_mem_singleton, selectedAfter_snoc]
      cases tap with
      | rangeSelected focusedDay => exact .inr ⟨fun h => absurd h.2 (by simp), n, congrArg some hn⟩
      | daySelected selectedDay =>
          change selectedDay = .utcDay n at hn
          subst hn
          rw [Tap.daySelected.injEq, utcDay_injective.eq_iff, onTap]
          rcases ih htaps with ⟨hall, hnow⟩ | ⟨hsome, m, hm⟩
          · rw [hnow, onDaySelected_some]
            by_cases hn : n = now.epochDay z
            · exact .inl ⟨⟨hall, hn⟩, if_pos hn⟩
            · exact .inr ⟨fun h => hn h.2, n, if_neg hn⟩
          · refine .inr ⟨fun h => hsome h.1, ?_⟩
            rw [hm, onDaySelected_some]
            split
            · exact ⟨m, rfl⟩
            · exact ⟨n, rfl⟩

/-- After a tap on a day the screen keeps a value of that day. -/
theorem isSameDay_selectedAfter (z : Zone) (now : DateTime) (taps : List Tap)
    (selectedDay : DateTime) :
    isSameDay z (selectedAfter z now (taps ++ [.daySelected selectedDay])) (some selectedDay)
      = true := by
  rw [selectedAfter_snoc, onTap, onDaySelected]
  split
  · assumption
  · exact (isSameDay_iff ..).mpr rfl

/-- The form stores the instant of its date. -/
theorem toData_date {form : TaskForm} {data : FormData} (h : form.toData = .ok data) :
    data.date = form.date.millisecondsSinceEpoch := by
  unfold TaskForm.toData at h
  split at h
  · split at h
    · cases h
    · cases h
      rfl
  · cases h
    rfl

/-- A UTC midnight that is stored and read back keeps its day where local time is
not behind. -/
theorem epochDay_stored_utcDay (offset : UtcOffset) (n : ℤ) :
    (DateTime.ofMillis (DateTime.utcDay n).millisecondsSinceEpoch).epochDay (.fixed offset) = n
      ↔ 0 ≤ offset.seconds := by
  have hl := offset.lower
  have hu := offset.upper
  have hmillis : (DateTime.utcDay n).millisecondsSinceEpoch = n * 86400000 := by
    simp only [DateTime.millisecondsSinceEpoch, DateTime.utcDay, days, microsecondsPerDay,
      microsecondsPerMillisecond]
    rw [show n * 86400000000 = n * 86400000 * 1000 by ring, Int.mul_tdiv_cancel _ (by decide)]
  unfold DateTime.epochDay
  rw [hmillis, DateTime.wallClock_fixed offset _ rfl]
  simp only [DateTime.ofMillis, microsecondsPerMillisecond, microsecondsPerSecond,
    microsecondsPerDay]
  omega

/-- **A task added from the calendar** is found on the day that was tapped, and on
no other, exactly where local time is not behind UTC, or where nothing else was
tapped than the day the screen was opened on, alone. The calendar hands the days
on as UTC midnights. -/
theorem appears_iff (offset : UtcOffset) {now : ℤ} (hnow : 0 ≤ now) (taps : List Tap)
    (hutc : ∀ tap ∈ taps, ∃ n, tap.day = .utcDay n) (n : ℤ)
    (formNow : DateTime) (form : TaskForm) {data : FormData}
    (hdata : (withInitialDate form (selectedAfter (.fixed offset) (.ofMicros now)
      (taps ++ [.daySelected (.utcDay n)])) formNow).toData = .ok data)
    (uid uuid docId : String) {events : List AppTask}
    (hevents : .fromDS docId (newTask (.fixed offset) uid uuid data) ∈ events) :
    Appears (.fixed offset) (.fromDS docId (newTask (.fixed offset) uid uuid data)) events
        (.utcDay n)
      ↔ 0 ≤ offset.seconds
        ∨ ∀ tap ∈ taps ++ [.daySelected (.utcDay n)],
          tap = .daySelected (.utcDay ((DateTime.ofMicros now).epochDay (.fixed offset))) := by
  have hdate : (AppTask.fromDS docId (newTask (.fixed offset) uid uuid data)).date
      = .ofMillis (initialDate (selectedAfter (.fixed offset) (.ofMicros now)
          (taps ++ [.daySelected (.utcDay n)])) formNow).millisecondsSinceEpoch :=
    congrArg DateTime.ofMillis (toData_date hdata)
  have hutc' : ∀ tap ∈ taps ++ [.daySelected (.utcDay n)], ∃ n, tap.day = .utcDay n := by
    rw [List.forall_mem_append, List.forall_mem_singleton]
    exact ⟨hutc, n, rfl⟩
  have hsame := isSameDay_selectedAfter (.fixed offset) (.ofMicros now) taps (.utcDay n)
  rw [appears_utcDay_iff hevents, hdate]
  rcases selectedAfter_cases (.fixed offset) (.ofMicros now) hutc' with
    ⟨htoday, hkept⟩ | ⟨htoday, m, hkept⟩
  · rw [hkept, isSameDay_iff, DateTime.epochDay_utcDay] at hsame
    -- the moment the screen was opened at is a local time of that day
    refine iff_of_true ?_ (.inr htoday)
    rw [hkept, ← hsame]
    exact DateTime.epochDay_ofMillis offset _ rfl hnow
  · rw [hkept, isSameDay_iff, DateTime.epochDay_utcDay, DateTime.epochDay_utcDay] at hsame
    subst hsame
    rw [hkept, or_iff_left htoday]
    exact epochDay_stored_utcDay offset m

/-- The form of an untimed task. -/
def swimForm : TaskForm where
  title := "Swim"
  description := none
  date := .ofMillis 0
  hasTime := false
  time := none
  repeats := .never
  reminder := .never
  tag := none

def bogota : UtcOffset := ⟨-18000, by decide, by decide⟩

/-- In Bogotá, at noon on 1 June 2022, a task is added for 15 June. It is stored
as the midnight of Greenwich and shown on the 14th. -/
theorem not_appears :
    ∃ data, (withInitialDate swimForm (selectedAfter (.fixed bogota)
          (.ofMicros 1654102800000000) ([] ++ [.daySelected (.utcDay 19158)]))
          (.ofMicros 1654102800000000)).toData
        = .ok data
      ∧ ¬ Appears (.fixed bogota) (.fromDS "doc" (newTask (.fixed bogota) "uid" "uuid" data))
          [.fromDS "doc" (newTask (.fixed bogota) "uid" "uuid" data)] (.utcDay 19158)
      ∧ AppTask.fromDS "doc" (newTask (.fixed bogota) "uid" "uuid" data)
        ∈ getEventsForDay (.fixed bogota) (some (.utcDay 19157))
          [.fromDS "doc" (newTask (.fixed bogota) "uid" "uuid" data)] := by
  refine ⟨_, rfl, fun h => ?_, ?_⟩
  · have hday := (appears_utcDay_iff List.mem_cons_self _).mp h
    exact absurd hday (by decide)
  · refine mem_getEventsForDay.mpr ⟨List.mem_cons_self, ?_⟩
    decide

/-- The same at Greenwich, where it is shown on the 15th. -/
theorem appears_iff_greenwich :
    ∃ data, Appears (.fixed .utc) (.fromDS "doc" (newTask (.fixed .utc) "uid" "uuid" data))
        [.fromDS "doc" (newTask (.fixed .utc) "uid" "uuid" data)] (.utcDay 19158)
      ↔ 0 ≤ UtcOffset.utc.seconds
        ∨ ∀ tap ∈ ([] ++ [.daySelected (.utcDay 19158)] : List Tap),
          tap = .daySelected
            (.utcDay ((DateTime.ofMicros 1654102800000000).epochDay (.fixed .utc))) :=
  ⟨_, appears_iff .utc (by decide) [] (by simp) 19158 (.ofMicros 1654102800000000)
    swimForm rfl "uid" "uuid" "doc" List.mem_cons_self⟩

end AquaFocus.Calendar
