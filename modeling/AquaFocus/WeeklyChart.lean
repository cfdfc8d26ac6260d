/-
`lib/screens/UserPages/Statistics/bar_chart.dart`: the focus time of this week, day
by day.

The chart counts back to Monday in days of 24 hours and writes the seven dates by
hand; the timers store a day's time under what `DateFormat('yyyy-MM-dd')` writes of
it. In a zone of constant offset the two are the same strings, as long as a year has
four digits (`hourOfTheDay_week`).
-/
import AquaFocus.FocusTime
import AquaFocus.AddTask

set_option autoImplicit false

open Dart

namespace AquaFocus.WeeklyChart

open AquaFocus.FocusTime (Date FocusDoc formatDate)

/-! ## Dates as strings -/

/-- The month and the day, as the chart and `DateFormat` both write them. -/
def monthDay (date : Date) : String :=
  "-" ++ padLeft 2 '0' date.month.repr ++ "-" ++ padLeft 2 '0' date.day.repr

/-- The chart's string of a date. -/
def dateKey (date : Date) : String := date.year.repr ++ monthDay date

/-- What `DateFormat('yyyy-MM-dd')` writes of a date: a year has four digits at least. -/
def documentId (date : Date) : String := padLeft 4 '0' date.year.repr ++ monthDay date

/-- The date of day `n`. -/
def dateOf (n : ℤ) : Date := ⟨Civil.yearOf n, Civil.monthOf n, Civil.dayOf n⟩

theorem formatDate_eq (z : Zone) (t : DateTime) : formatDate z t = dateOf (t.epochDay z) := rfl

/-- From the year 1000 on both write the same. -/
theorem dateKey_eq {date : Date} (h : 1000 ≤ date.year) : dateKey date = documentId date := by
  have hlen : 4 ≤ date.year.repr.length := by
    obtain ⟨y, hy⟩ := Int.eq_ofNat_of_zero_le (show 0 ≤ date.year by omega)
    rw [hy] at h ⊢
    by_contra hlt
    have hle := (Nat.length_repr_le_iff (n := y) (k := 3) (by decide)).mp (by
      change ¬ 4 ≤ y.repr.length at hlt
      omega)
    omega
  rw [dateKey, documentId, padLeft_of_le '0' hlen]

/-- A month or a day takes two digits. -/
theorem length_two {n : ℤ} (h0 : 0 ≤ n) (h : n < 100) : (padLeft 2 '0' n.repr).length = 2 := by
  obtain ⟨k, rfl⟩ := Int.eq_ofNat_of_zero_le h0
  have hle : k.repr.length ≤ 2 := (Nat.length_repr_le_iff (by decide)).mpr (by omega)
  rw [length_padLeft]
  exact max_eq_left hle

theorem append_inj {a b c d : String} (h : a ++ c = b ++ d) (hlen : c.length = d.length) :
    a = b ∧ c = d := by
  have hlist := congrArg String.toList h
  rw [String.toList_append, String.toList_append] at hlist
  obtain ⟨hab, hcd⟩ := List.append_inj' hlist
    (by rw [String.length_toList, String.length_toList, hlen])
  exact ⟨String.toList_injective hab, String.toList_injective hcd⟩

/-- The chart's strings of two days are different. -/
theorem dateKey_injective : Function.Injective fun n => dateKey (dateOf n) := by
  intro m n h
  have hday : ∀ n, (padLeft 2 '0' (Civil.dayOf n).repr).length = 2 := by
    intro n
    have hd := Civil.dayOf_bounds n
    have hlen := Civil.monthLength_bounds (Civil.monthIndex n)
    exact length_two (by omega) (by omega)
  have hmonth : ∀ n, (padLeft 2 '0' (Civil.monthOf n).repr).length = 2 := by
    intro n
    have hm := Civil.monthOf_bounds n
    exact length_two (by omega) (by omega)
  simp only [dateKey, monthDay, dateOf] at h
  -- from the end on, the parts have the same lengths
  obtain ⟨hy, h⟩ := append_inj h (by simp only [String.length_append, hday, hmonth])
  obtain ⟨h, hd⟩ := append_inj h (by rw [hday, hday])
  obtain ⟨h, -⟩ := append_inj h rfl
  obtain ⟨-, hm⟩ := append_inj h (by rw [hmonth, hmonth])
  have hyear : Civil.yearOf m = Civil.yearOf n :=
    padLeft_injective (congrArg (padLeft 2 '0') hy)
  rw [← Civil.dayNumber_civil m, hyear, padLeft_injective hm, padLeft_injective hd,
    Civil.dayNumber_civil]

/-! ## The week -/

/-- A collection of documents, by their ids. -/
abbrev Documents : Type := String → Option FocusDoc

/-- `getTimeOfTheDay`. -/
def getTimeOfTheDay (docs : Documents) (day : String) : ℤ := ((docs day).map (·.totalTime)).getD 0

/-- The seven strings of `hourOfTheDay`. -/
def weekKeys (z : Zone) (now : DateTime) : List String :=
  let monday := now.subtract (days (now.weekday z - 1))
  (List.range 7).map fun i : ℕ => dateKey (formatDate z (monday.add (days i)))

/-- `hourOfTheDay`: the list `weekHours`. -/
def hourOfTheDay (z : Zone) (docs : Documents) (now : DateTime) : List ℤ :=
  (weekKeys z now).map (getTimeOfTheDay docs)

/-- The chart shows the week of the day `monday`: the keys are the ids under which the
timers store its days, all different, and today's time is where its weekday says. -/
structure ShowsWeek (z : Zone) (docs : Documents) (now : DateTime) (monday : ℤ) : Prop where
  isMonday : Civil.weekdayOf monday = 1
  thisWeek : Civil.weekOf monday = Civil.weekOf (now.epochDay z)
  length : (weekKeys z now).length = 7
  keys : ∀ i : ℕ, i < 7 → ∀ t : DateTime, t.epochDay z = monday + i →
    (weekKeys z now)[i]? = some (documentId (formatDate z t))
  nodup : (weekKeys z now).Nodup
  bars : ∀ i : ℕ, i < 7 → ∀ t : DateTime, t.epochDay z = monday + i →
    (hourOfTheDay z docs now)[i]? = some (getTimeOfTheDay docs (documentId (formatDate z t)))
  today : (hourOfTheDay z docs now)[(now.weekday z - 1).toNat]?
    = some (getTimeOfTheDay docs (documentId (formatDate z now)))

section Fixed

variable (offset : UtcOffset)

/-- The strings are those of the days from Monday on. -/
theorem weekKeys_eq {now : DateTime} (hutc : now.isUtc = false) :
    weekKeys (.fixed offset) now = (List.range 7).map fun i : ℕ =>
      dateKey (dateOf (now.epochDay (.fixed offset) - (now.weekday (.fixed offset) - 1) + i)) := by
  have hmonday : now.subtract (days (now.weekday (.fixed offset) - 1))
      = now.add (days (-(now.weekday (.fixed offset) - 1))) := by
    simp only [DateTime.subtract, DateTime.add, days, DateTime.mk.injEq, and_true]
    ring
  unfold weekKeys
  refine List.map_congr_left fun i _ => ?_
  rw [formatDate_eq, hmonday, DateTime.epochDay_add_days offset (now.add _) hutc,
    DateTime.epochDay_add_days offset now hutc, ← sub_eq_add_neg]

/-- From the year 1001 on, the string of a day is the id the timers store it under. -/
theorem weekKeys_getElem {now : DateTime} (hutc : now.isUtc = false)
    (hyear : 1001 ≤ now.year (.fixed offset)) {i : ℕ} (hi : i < 7) {t : DateTime}
    (ht : t.epochDay (.fixed offset)
      = now.epochDay (.fixed offset) - (now.weekday (.fixed offset) - 1) + i) :
    (weekKeys (.fixed offset) now)[i]? = some (documentId (formatDate (.fixed offset) t)) := by
  have hwd := Civil.weekdayOf_bounds (now.epochDay (.fixed offset))
  have hweekday : now.weekday (.fixed offset)
      = Civil.weekdayOf (now.epochDay (.fixed offset)) := rfl
  -- the week may have begun in the year before
  have hle : Civil.yearOf (now.epochDay (.fixed offset)) - 1
      ≤ Civil.yearOf (t.epochDay (.fixed offset)) := Civil.yearOf_le (by omega)
  have hfour : 1000 ≤ (dateOf (t.epochDay (.fixed offset))).year := by
    change 1000 ≤ Civil.yearOf (t.epochDay (.fixed offset))
    unfold DateTime.year at hyear
    omega
  rw [weekKeys_eq offset hutc, List.getElem?_map, List.getElem?_range hi, Option.map_some,
    formatDate_eq, ← ht, dateKey_eq hfour]

/-- **The week of the chart**: in a zone of constant offset, and from the year 1001 on,
it is the week of today, under the ids of the timers. -/
theorem hourOfTheDay_week (docs : Documents) {now : DateTime} (hutc : now.isUtc = false)
    (hyear : 1001 ≤ now.year (.fixed offset)) :
    ∃ monday, ShowsWeek (.fixed offset) docs now monday := by
  have hwd := Civil.weekdayOf_bounds (now.epochDay (.fixed offset))
  have hweekday : now.weekday (.fixed offset)
      = Civil.weekdayOf (now.epochDay (.fixed offset)) := rfl
  have hbars : ∀ i : ℕ, i < 7 → ∀ t : DateTime, t.epochDay (.fixed offset)
        = now.epochDay (.fixed offset) - (now.weekday (.fixed offset) - 1) + i →
      (hourOfTheDay (.fixed offset) docs now)[i]?
        = some (getTimeOfTheDay docs (documentId (formatDate (.fixed offset) t))) := by
    intro i hi t ht
    rw [hourOfTheDay, List.getElem?_map, weekKeys_getElem offset hutc hyear hi ht,
      Option.map_some]
  refine ⟨_, ?_, ?_, ?_, fun i hi t ht => weekKeys_getElem offset hutc hyear hi ht, ?_, hbars, ?_⟩
  · rw [hweekday]
    simp only [Civil.weekdayOf]
    omega
  · rw [hweekday]
    simp only [Civil.weekdayOf, Civil.weekOf]
    omega
  · rw [weekKeys_eq offset hutc, List.length_map, List.length_range]
  · rw [weekKeys_eq offset hutc]
    refine List.nodup_range.map fun i j hij => ?_
    have hday := dateKey_injective hij
    omega
  · -- today is as many days after Monday
    exact hbars (now.weekday (.fixed offset) - 1).toNat (by omega) now (by omega)

/-- New Year's Day of 2023, a Sunday, at noon: the week began in December. -/
theorem hourOfTheDay_week_newYear :
    ∃ monday, ShowsWeek (.fixed .utc) (fun _ => none) (.ofMillis 1672574400000) monday :=
  hourOfTheDay_week .utc (fun _ => none) rfl (by decide)

example : weekKeys (.fixed .utc) (.ofMillis 1672574400000) = ["2022-12-26", "2022-12-27",
    "2022-12-28", "2022-12-29", "2022-12-30", "2022-12-31", "2023-01-01"] := by decide

end Fixed

end AquaFocus.WeeklyChart
