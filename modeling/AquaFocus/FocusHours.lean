/-
The list of hours `saveFocusTime` writes.

A day without a record gets its list from three nested loops: seconds to the end
of the hour a session starts in, seconds into the hour it ends in, and sixty for
every hour between (`generated_of_ne`). A day with one gets the session only
where it starts and ends in one clock hour. The boundaries of the hours are
taken on the day of the save.

`paths_agree_iff` says when the two paths add the same.
-/
import AquaFocus.FocusSaves

set_option autoImplicit false

open Dart

namespace AquaFocus.FocusHours

open FocusTime hiding step
open FocusSaves (hoursOf)

/-! ## The first list of a day -/

/-- The clock hour a value shows. -/
def hourOf (z : Zone) (t : DateTime) : Fin 24 :=
  ⟨(t.hour z).toNat, by have := t.hour_bounds z; omega⟩

theorem atHour_hourOf (z : Zone) (t : DateTime) : AtHour z t (hourOf z t) :=
  Int.toNat_of_nonneg (t.hour_bounds z).1

/-- A wall clock is its day, its clock hour and what is past the hour. -/
theorem wallClock_hourOf (z : Zone) (t : DateTime) :
    t.wallClock z = days (t.epochDay z) + (hourOf z t).val * microsecondsPerHour
      + t.wallClock z % microsecondsPerHour := by
  have hhour : ((hourOf z t).val : ℤ) = t.hour z := atHour_hourOf z t
  rw [hhour]
  exact t.wallClock_split z

/-- The end of clock hour `i`, on the day the clock reads. -/
def endOfHour (z : Zone) (call : Call) (i : Fin 24) : DateTime :=
  .ofFields z (call.readings.startYear.year z) (call.readings.startMonth.month z)
    (call.readings.startDay.day z) (i.val + 1) 0

/-- The start of clock hour `j`, on the day the clock reads. -/
def startOfHour (z : Zone) (call : Call) (j : Fin 24) : DateTime :=
  .ofFields z (call.readings.endYear.year z) (call.readings.endMonth.month z)
    (call.readings.endDay.day z) j.val 0

variable {z : Zone} {call : Call}

/-- The loop that adds sixty to each hour of a list. -/
theorem foldl_add_apply {l : List (Fin 24)} (hl : l.Nodup) (n : ℤ) (hours : Hours) (i : Fin 24) :
    l.foldl (fun hours k => hours.add k n) hours i = hours i + if i ∈ l then n else 0 := by
  induction l generalizing hours with
  | nil => simp
  | cons k l ih =>
      obtain ⟨hk, hl⟩ := List.nodup_cons.mp hl
      rw [List.foldl_cons, ih hl, Hours.add_apply, add_assoc]
      by_cases hik : k = i
      · rw [if_pos hik, if_neg (hik ▸ hk), if_pos (hik ▸ List.mem_cons_self), add_zero]
      · have hmem : i ∈ k :: l ↔ i ∈ l := by
          rw [List.mem_cons, or_iff_right (Ne.symm hik)]
        rw [if_neg hik, zero_add]
        simp only [hmem]

/-- What a session over several clock hours leaves in an empty list. -/
theorem generated_of_ne (hne : hourOf z call.startTime ≠ hourOf z call.endTime) (i : Fin 24) :
    call.generated z i
      = (if hourOf z call.startTime = i then
            differenceInt (endOfHour z call (hourOf z call.startTime)) call.startTime else 0)
        + (if hourOf z call.endTime = i then
            differenceInt call.endTime (startOfHour z call (hourOf z call.endTime)) else 0)
        + if hourOf z call.startTime < i ∧ i < hourOf z call.endTime then 60 else 0 := by
  have hstart := atHour_iff (atHour_hourOf z call.startTime)
  have hend := atHour_iff (atHour_hourOf z call.endTime)
  -- the outer loop acts at the hour of the start, and never in its first branch
  have hloop : call.generated z = (List.finRange 24).foldl (fun hours i =>
      if AtHour z call.startTime i then
        call.spread z i (hours.add i (differenceInt (endOfHour z call i) call.startTime))
      else hours) fun _ => 0 := by
    unfold Call.generated
    congr 1
    funext hours i
    have hneither : ¬ (AtHour z call.startTime i ∧ AtHour z call.endTime i) := by
      rintro ⟨hs, he⟩
      exact hne (((hstart i).mp hs).symm.trans ((hend i).mp he))
    rw [if_neg hneither]
    by_cases hi : AtHour z call.startTime i
    · rw [if_pos ⟨hi, fun he => hneither ⟨hi, he⟩⟩, if_pos hi]
      rfl
    · rw [if_neg fun h => hi h.1, if_neg hi]
  rw [hloop, foldl_if_unique _ hstart (List.nodup_finRange 24) (List.mem_finRange _)]
  -- and the middle one at the hour of the end
  unfold Call.spread
  rw [foldl_if_unique _ hend (List.nodup_finRange 24) (List.mem_finRange _),
    foldl_add_apply ((List.nodup_finRange 24).filter _), Hours.add_apply, Hours.add_apply]
  simp only [List.mem_filter, List.mem_finRange, true_and, decide_eq_true_eq, zero_add]
  rfl

/-- A session between two values of one clock hour adds its length there. -/
theorem hoursAfter_of_eq (heq : hourOf z call.startTime = hourOf z call.endTime)
    (o : Option Hours) :
    call.hoursAfter z o = (o.getD fun _ => 0).add (hourOf z call.startTime) call.diffInt :=
  Call.hoursAfter_of_atHour (atHour_hourOf z call.startTime) (heq ▸ atHour_hourOf z call.endTime) o

/-- A session over several clock hours leaves a list that is there as it is. -/
theorem added_of_ne (hne : hourOf z call.startTime ≠ hourOf z call.endTime) (hours : Hours) :
    call.added z hours = hours := by
  unfold Call.added
  refine List.foldl_fixed' (fun i => if_neg ?_) (List.finRange 24)
  rintro ⟨hs, he⟩
  exact hne (((atHour_iff (atHour_hourOf z call.startTime) i).mp hs).symm.trans
    ((atHour_iff (atHour_hourOf z call.endTime) i).mp he))

/-! ## The list that is written -/

/-- The list the caller's day has after a call. -/
def written (z : Zone) (docs : Collection) (call : Call) : Hours :=
  hoursOf (saveFocusTime z docs call) (formatDate z call.caller)

/-- With its readings on the caller's day, a call writes what its loops make of
the day's list. -/
theorem written_eq (hday : call.OnOneDay z) (docs : Collection) :
    written z docs call
      = call.hoursAfter z ((docs.lookup (formatDate z call.caller)).map (·.hours)) := by
  have hread : getHoursList z docs call.readings.getListForHours
      = (docs.lookup (formatDate z call.caller)).map (·.hours) := by
    rw [getHoursList, hday.1]
  unfold written hoursOf
  cases hdoc : docs.lookup (formatDate z call.caller) with
  | some doc =>
      rw [saveFocusTime_of_some hdoc, lookup_set, if_pos rfl, hread, hdoc]
      rfl
  | none =>
      rw [saveFocusTime_of_none hdoc, lookup_set, if_pos rfl, hread, hdoc]
      rfl

/-! ## Two paths -/

/-- A difference that `timeString` makes nothing of: less than a second, or, below
zero, one whose hours take away what its remainder adds. -/
def Crumb (t u : DateTime) : Prop :=
  inSeconds (t.difference u) = 0
    ∨ ∃ q : ℤ, 1 ≤ q ∧ q ≤ 59 ∧ inSeconds (t.difference u) = -(3540 * q + 3600)

theorem differenceInt_eq_zero_iff (t u : DateTime) : differenceInt t u = 0 ↔ Crumb t u := by
  unfold differenceInt Crumb
  rw [total_timeString]
  generalize inSeconds (t.difference u) = s
  rcases Int.le_total 0 s with hs | hs
  · rw [Int.tdiv_eq_ediv_of_nonneg hs]
    constructor
    · intro h
      left
      omega
    · rintro (h | ⟨q, hq, -, h⟩) <;> omega
  · obtain ⟨m, rfl⟩ : ∃ m, s = -m := ⟨-s, (neg_neg s).symm⟩
    rw [Int.neg_tdiv, Int.tdiv_eq_ediv_of_nonneg (by omega)]
    constructor
    · intro h
      by_cases hm : m = 0
      · left
        omega
      · exact .inr ⟨m / 3600, by omega, by omega, by omega⟩
    · rintro (h | ⟨q, hq, hq', h⟩)
      · omega
      · have hquot : m / 3600 = q := by omega
        omega

/-- A session over several clock hours of which nothing is left. -/
def Lost (z : Zone) (call : Call) : Prop :=
  (hourOf z call.endTime).val ≤ (hourOf z call.startTime).val + 1
    ∧ Crumb (endOfHour z call (hourOf z call.startTime)) call.startTime
    ∧ Crumb call.endTime (startOfHour z call (hourOf z call.endTime))

theorem generated_eq_zero_iff (hne : hourOf z call.startTime ≠ hourOf z call.endTime) :
    (∀ i, call.generated z i = 0) ↔ Lost z call := by
  unfold Lost
  rw [← differenceInt_eq_zero_iff, ← differenceInt_eq_zero_iff]
  constructor
  · intro h
    have hstart := h (hourOf z call.startTime)
    have hend := h (hourOf z call.endTime)
    rw [generated_of_ne hne, if_pos rfl, if_neg hne.symm, if_neg (by omega)] at hstart
    rw [generated_of_ne hne, if_pos rfl, if_neg hne, if_neg (by omega)] at hend
    refine ⟨?_, by omega, by omega⟩
    by_contra hfar
    -- an hour between the two has its sixty
    have hlt : (hourOf z call.startTime).val + 1 < 24 := by omega
    have hmid := h ⟨(hourOf z call.startTime).val + 1, hlt⟩
    rw [generated_of_ne hne, if_neg (by simp [Fin.ext_iff]), if_neg (by simp [Fin.ext_iff]; omega),
      if_pos (by simp [Fin.lt_def]; omega)] at hmid
    exact absurd hmid (by decide)
  · rintro ⟨hnear, hstart, hend⟩ i
    rw [generated_of_ne hne, hstart, hend, ite_self, ite_self, if_neg (by omega)]
    rfl

/-- The second path adds what the first one writes, for sessions in one clock hour
and for those the first one loses. -/
theorem agree_iff (hday : call.OnOneDay z) {docs docs' : Collection} {doc : FocusDoc}
    (hdoc : docs.lookup (formatDate z call.caller) = some doc)
    (hnone : docs'.lookup (formatDate z call.caller) = none) :
    (∀ i, written z docs call i = doc.hours i + written z docs' call i)
      ↔ hourOf z call.startTime = hourOf z call.endTime ∨ Lost z call := by
  rw [written_eq hday, written_eq hday, hdoc, hnone]
  by_cases hne : hourOf z call.startTime = hourOf z call.endTime
  · refine iff_of_true (fun i => ?_) (.inl hne)
    rw [hoursAfter_of_eq hne, hoursAfter_of_eq hne, Hours.add_apply, Hours.add_apply]
    simp
  · rw [or_iff_right hne, ← generated_eq_zero_iff hne]
    have hadded : call.hoursAfter z ((some doc).map (·.hours)) = doc.hours :=
      added_of_ne hne doc.hours
    rw [hadded]
    exact forall_congr' fun i => by
      rw [eq_comm, add_eq_left]
      rfl

/-! ## A session and its save, under one offset -/

/-- A session that starts on day `m` and is saved on day `n`, by a clock that
reads that day throughout. From the first midnight before to the first after, the
zone keeps its offset. -/
structure SavedOn (z : Zone) (offset : UtcOffset) (m n : ℤ) (call : Call) : Prop where
  steady : z.SteadyOn offset (DateTime.dayStart offset m).microsecondsSinceEpoch
    (DateTime.dayStart offset (n + 1)).microsecondsSinceEpoch
  startLocal : call.startTime.isUtc = false
  endLocal : call.endTime.isUtc = false
  start_le : (DateTime.dayStart offset m).microsecondsSinceEpoch
    ≤ call.startTime.microsecondsSinceEpoch
  start_lt : call.startTime.microsecondsSinceEpoch
    < (DateTime.dayStart offset (m + 1)).microsecondsSinceEpoch
  end_le : call.endTime.microsecondsSinceEpoch
    ≤ (DateTime.dayStart offset (n + 1)).microsecondsSinceEpoch
  caller : call.caller.epochDay z = n
  readings : ∀ r ∈ call.readings.toList, r.epochDay z = n
  days_le : m ≤ n

namespace SavedOn

variable {offset : UtcOffset} {m n : ℤ} (h : SavedOn z offset m n call)

include h

theorem onOneDay : call.OnOneDay z := by
  have hdate : ∀ r ∈ call.readings.toList, formatDate z r = formatDate z call.caller := by
    intro r hr
    simp only [formatDate, DateTime.year, DateTime.month, DateTime.day, h.readings r hr, h.caller]
  exact ⟨hdate _ (by simp [Readings.toList]), hdate _ (by simp [Readings.toList])⟩

theorem wallClock_start : call.startTime.wallClock z
    = call.startTime.microsecondsSinceEpoch + offset.seconds * microsecondsPerSecond := by
  have hle := call.start_le_end
  exact h.steady.wallClock h.startLocal h.start_le (hle.trans h.end_le)

theorem wallClock_end : call.endTime.wallClock z
    = call.endTime.microsecondsSinceEpoch + offset.seconds * microsecondsPerSecond := by
  have hle := call.start_le_end
  exact h.steady.wallClock h.endLocal (h.start_le.trans hle) h.end_le

theorem epochDay_start : call.startTime.epochDay z = m := by
  have hle := h.start_le
  have hlt := h.start_lt
  rw [DateTime.epochDay, h.wallClock_start]
  simp only [DateTime.dayStart, days, microsecondsPerDay, microsecondsPerSecond] at *
  omega

/-- The hour marks of the day of the save, as instants. -/
theorem mark_eq {k : ℤ} (hk0 : 0 ≤ k) (hk : k ≤ 24) :
    z.instantOf (days n + k * microsecondsPerHour)
      = days n + k * microsecondsPerHour - offset.seconds * microsecondsPerSecond := by
  have hmn := h.days_le
  apply h.steady.instantOf_wall
  · simp only [DateTime.dayStart, days, microsecondsPerDay, microsecondsPerHour,
      microsecondsPerSecond]
    omega
  · simp only [DateTime.dayStart, days, microsecondsPerDay, microsecondsPerHour,
      microsecondsPerSecond]
    omega

theorem endOfHour_eq (i : Fin 24) : (endOfHour z call i).microsecondsSinceEpoch
    = days n + (i.val + 1) * microsecondsPerHour - offset.seconds * microsecondsPerSecond := by
  have hyear := h.readings call.readings.startYear (by simp [Readings.toList])
  have hmonth := h.readings call.readings.startMonth (by simp [Readings.toList])
  have hday := h.readings call.readings.startDay (by simp [Readings.toList])
  rw [endOfHour, DateTime.ofFields_of_epochDay hyear hmonth hday, zero_mul, add_zero]
  exact h.mark_eq (by omega) (by omega)

theorem startOfHour_eq (j : Fin 24) : (startOfHour z call j).microsecondsSinceEpoch
    = days n + j.val * microsecondsPerHour - offset.seconds * microsecondsPerSecond := by
  have hyear := h.readings call.readings.endYear (by simp [Readings.toList])
  have hmonth := h.readings call.readings.endMonth (by simp [Readings.toList])
  have hday := h.readings call.readings.endDay (by simp [Readings.toList])
  rw [startOfHour, DateTime.ofFields_of_epochDay hyear hmonth hday, zero_mul, add_zero]
  exact h.mark_eq (by omega) (by omega)

/-- From the start to the end of its clock hour: what is left of the hour, and a
day for each day the save is late. -/
theorem endOfHour_sub_start :
    (endOfHour z call (hourOf z call.startTime)).difference call.startTime
      = (microsecondsPerHour - call.startTime.wallClock z % microsecondsPerHour)
        + days (n - m) := by
  have hsplit := wallClock_hourOf z call.startTime
  have hwall := h.wallClock_start
  rw [h.epochDay_start] at hsplit
  unfold DateTime.difference
  rw [h.endOfHour_eq]
  simp only [days, microsecondsPerDay, microsecondsPerHour] at *
  omega

/-- From the start of its clock hour to the end: what is past the hour, less a day
for each day the save is late. -/
theorem end_sub_startOfHour :
    call.endTime.difference (startOfHour z call (hourOf z call.endTime))
      = call.endTime.wallClock z % microsecondsPerHour
        - days (n - call.endTime.epochDay z) := by
  have hsplit := wallClock_hourOf z call.endTime
  have hwall := h.wallClock_end
  unfold DateTime.difference
  rw [h.startOfHour_eq]
  simp only [days, microsecondsPerDay, microsecondsPerHour] at *
  omega

omit h in
/-- A session of the day of its save ends on that day, in the hour it started in
or a later one, or at the midnight after it. -/
theorem end_cases (h : SavedOn z offset n n call) :
    (call.endTime.epochDay z = n
        ∧ (hourOf z call.startTime).val ≤ (hourOf z call.endTime).val)
      ∨ (call.endTime.epochDay z = n + 1 ∧ (hourOf z call.endTime).val = 0
        ∧ call.endTime.wallClock z % microsecondsPerHour = 0) := by
  have hsplit := wallClock_hourOf z call.startTime
  have hsplit' := wallClock_hourOf z call.endTime
  have hle := call.start_le_end
  have hend_le := h.end_le
  have hwall := h.wallClock_start
  have hwall' := h.wallClock_end
  rw [h.epochDay_start] at hsplit
  simp only [DateTime.dayStart, days, microsecondsPerDay, microsecondsPerHour] at *
  omega

end SavedOn

/-! ## Two paths, on the day of the session -/

/-- A session that ends in the clock hour after the one it starts in, and takes
less than a second of either. -/
def Adjoining (z : Zone) (call : Call) : Prop :=
  (hourOf z call.endTime).val = (hourOf z call.startTime).val + 1
    ∧ microsecondsPerHour - call.startTime.wallClock z % microsecondsPerHour
      < microsecondsPerSecond
    ∧ call.endTime.wallClock z % microsecondsPerHour < microsecondsPerSecond

section OfDay

variable {offset : UtcOffset} {n : ℤ}

theorem crumb_iff_of_nonneg {t u : DateTime} (h : 0 ≤ t.difference u) :
    Crumb t u ↔ t.difference u < microsecondsPerSecond := by
  unfold Crumb
  rw [inSeconds_of_nonneg h]
  simp only [microsecondsPerSecond]
  constructor
  · rintro (hzero | ⟨q, hq, -, hneg⟩) <;> omega
  · intro hlt
    left
    omega

theorem lost_iff_adjoining (h : SavedOn z offset n n call)
    (hne : hourOf z call.startTime ≠ hourOf z call.endTime) :
    Lost z call ↔ Adjoining z call := by
  have hstart := h.endOfHour_sub_start
  have hend := h.end_sub_startOfHour
  rw [sub_self, days, zero_mul, add_zero] at hstart
  have hleft : 0 ≤ (endOfHour z call (hourOf z call.startTime)).difference call.startTime := by
    rw [hstart]
    simp only [microsecondsPerHour]
    omega
  unfold Lost Adjoining
  rw [crumb_iff_of_nonneg hleft, hstart]
  rcases h.end_cases with ⟨hday, hhours⟩ | ⟨hday, hhour, hpast⟩
  · -- on the day itself the end shows a later hour
    have hlt : (hourOf z call.startTime).val < (hourOf z call.endTime).val :=
      lt_of_le_of_ne hhours (Fin.val_ne_of_ne hne)
    rw [hday, sub_self, days, zero_mul, sub_zero] at hend
    have hright : 0 ≤ call.endTime.difference (startOfHour z call (hourOf z call.endTime)) := by
      rw [hend]
      exact Int.emod_nonneg _ (by decide)
    rw [crumb_iff_of_nonneg hright, hend]
    have hnear : (hourOf z call.endTime).val ≤ (hourOf z call.startTime).val + 1
        ↔ (hourOf z call.endTime).val = (hourOf z call.startTime).val + 1 := by omega
    rw [hnear]
  · -- at the midnight after it a whole day is past the hour
    have hday' : call.endTime.difference (startOfHour z call (hourOf z call.endTime))
        = microsecondsPerDay := by
      rw [hend, hday, hpast]
      simp only [days]
      omega
    have hlong : ¬ Crumb call.endTime (startOfHour z call (hourOf z call.endTime)) := by
      rw [crumb_iff_of_nonneg (by rw [hday']; decide), hday']
      decide
    have hlater : (hourOf z call.endTime).val ≠ (hourOf z call.startTime).val + 1 := by omega
    exact iff_of_false (fun hl => hlong hl.2.2) fun ha => hlater ha.1

end OfDay

/-- **The first and later saves of a day agree** on a session within one clock
hour, and on one that the first save loses. Under one offset that is a session of
less than a second on either side of an hour's end. -/
theorem paths_agree_iff (hday : call.OnOneDay z) {docs docs' : Collection} {doc : FocusDoc}
    (hdoc : docs.lookup (formatDate z call.caller) = some doc)
    (hnone : docs'.lookup (formatDate z call.caller) = none) :
    ((∀ i, written z docs call i = doc.hours i + written z docs' call i)
        ↔ hourOf z call.startTime = hourOf z call.endTime ∨ Lost z call)
      ∧ ∀ offset n, SavedOn z offset n n call →
        ((∀ i, written z docs call i = doc.hours i + written z docs' call i)
          ↔ hourOf z call.startTime = hourOf z call.endTime ∨ Adjoining z call) := by
  refine ⟨agree_iff hday hdoc hnone, fun offset n h => ?_⟩
  rw [agree_iff hday hdoc hnone]
  by_cases hne : hourOf z call.startTime = hourOf z call.endTime
  · exact iff_of_true (.inl hne) (.inl hne)
  · rw [or_iff_right hne, or_iff_right hne, lost_iff_adjoining h hne]

/-- An hour from half past ten on 1 June 2022, saved as it ends. -/
def halfPastTen : Call where
  duration := 3600
  caller := june 41400
  startTime := june 37800
  endTime := june 41400
  readings := .at (june 41400)
  duration_nonneg := by decide
  start_le_end := by decide
  inOrder := by decide

theorem savedOn_halfPastTen : SavedOn utc .utc 19144 19144 halfPastTen where
  steady := .fixed ..
  startLocal := rfl
  endLocal := rfl
  start_le := by decide
  start_lt := by decide
  end_le := by decide
  caller := by decide
  readings := by decide
  days_le := by decide

/-- After the morning's ten minutes the hour adds nothing; as the first of its day
it adds half an hour on either side of eleven. -/
theorem not_paths_agree :
    (¬ ∀ i, written utc (saveFocusTime utc [] morning) halfPastTen i
        = hoursOf (saveFocusTime utc [] morning) ⟨2022, 6, 1⟩ i + written utc [] halfPastTen i)
      ∧ written utc (saveFocusTime utc [] morning) halfPastTen 10 = 600
      ∧ written utc [] halfPastTen 10 = 1800 ∧ written utc [] halfPastTen 11 = 1800 :=
  ⟨fun h => absurd (h 10) (by decide), rfl, rfl, rfl⟩

theorem paths_agree_iff_halfPastTen :
    ((∀ i, written utc (saveFocusTime utc [] morning) halfPastTen i
          = morning.generated utc i + written utc [] halfPastTen i)
        ↔ hourOf utc halfPastTen.startTime = hourOf utc halfPastTen.endTime
          ∨ Lost utc halfPastTen)
      ∧ ((∀ i, written utc (saveFocusTime utc [] morning) halfPastTen i
          = morning.generated utc i + written utc [] halfPastTen i)
        ↔ hourOf utc halfPastTen.startTime = hourOf utc halfPastTen.endTime
          ∨ Adjoining utc halfPastTen) := by
  have h := @paths_agree_iff utc halfPastTen savedOn_halfPastTen.onOneDay
    (saveFocusTime utc [] morning) [] _ rfl rfl
  exact ⟨h.1, h.2 .utc 19144 savedOn_halfPastTen⟩

end AquaFocus.FocusHours
