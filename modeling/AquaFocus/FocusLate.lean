/-
A session that is saved some time after it ended, over midnight or more.

The ends of the clock hours are taken on the day of the save. Whatever the zone,
the list stays within what the session lasted when the parts of its first and
last clock hours do that these marks cut off (`Fits`). Where one offset holds for
the session, the save and the two marks, the hour of the start gains a day with
every midnight since, twenty-four minutes as `timeString`'s total has it, and the
hour of the end loses as much with every midnight since it ended: `InTime` says
when both stay within bounds. `bounded_iff` is about both.
-/
import AquaFocus.FocusHours

set_option autoImplicit false

open Dart

namespace AquaFocus.FocusLate

open FocusTime hiding step
open FocusSaves (hoursOf)
open FocusHours

variable {z : Zone} {call : Call}

/-! ## A save at any time after the session -/

/-- A session saved at some time after its end, by a clock that reads the day of
the save throughout. -/
structure SavedAfter (z : Zone) (call : Call) : Prop where
  startLocal : call.startTime.isUtc = false
  endLocal : call.endTime.isUtc = false
  callerLocal : call.caller.isUtc = false
  saved : call.endTime.microsecondsSinceEpoch ≤ call.caller.microsecondsSinceEpoch
  readings : ∀ r ∈ call.readings.toList, r.epochDay z = call.caller.epochDay z

theorem SavedAfter.onOneDay (h : SavedAfter z call) : call.OnOneDay z := by
  have hdate : ∀ r ∈ call.readings.toList, formatDate z r = formatDate z call.caller := by
    intro r hr
    simp only [formatDate, DateTime.year, DateTime.month, DateTime.day, h.readings r hr]
  exact ⟨hdate _ (by simp [Readings.toList]), hdate _ (by simp [Readings.toList])⟩

/-- Seconds with each whole hour counted as sixty. -/
def weighed (s : ℤ) : ℤ := s % 3600 + s.tdiv 3600 * 60

/-- The time from the start to the end of its clock hour, and that from the start
of its clock hour to the end, both marked on the day of the save, weigh no less
than nothing and no more than the session; and a clock hour between the two has
its minute. -/
def Fits (z : Zone) (call : Call) : Prop :=
  (∀ d ∈ [(endOfHour z call (hourOf z call.startTime)).difference call.startTime,
      call.endTime.difference (startOfHour z call (hourOf z call.endTime))],
    0 ≤ weighed (inSeconds d)
      ∧ weighed (inSeconds d) ≤ inSeconds (call.endTime.difference call.startTime))
    ∧ ((hourOf z call.startTime).val + 1 < (hourOf z call.endTime).val →
      60 ≤ inSeconds (call.endTime.difference call.startTime))

/-- No hour of an empty list gains more than the session lasted, or loses. -/
theorem generated_bounds_iff (hne : hourOf z call.startTime ≠ hourOf z call.endTime) :
    (∀ i, 0 ≤ call.generated z i
        ∧ call.generated z i ≤ inSeconds (call.endTime.difference call.startTime))
      ↔ Fits z call := by
  have hlen := call.inSeconds_nonneg
  have hweighed : ∀ t u : DateTime, differenceInt t u = weighed (inSeconds (t.difference u)) :=
    fun t u => total_timeString _
  unfold Fits
  simp only [List.forall_mem_cons, List.not_mem_nil, false_implies, implies_true, and_true,
    ← hweighed]
  constructor
  · intro hall
    have hstart := hall (hourOf z call.startTime)
    have hend := hall (hourOf z call.endTime)
    rw [generated_of_ne hne, if_pos rfl, if_neg hne.symm, if_neg (by omega), add_zero,
      add_zero] at hstart
    rw [generated_of_ne hne, if_pos rfl, if_neg hne, if_neg (by omega), add_zero,
      zero_add] at hend
    refine ⟨⟨hstart, hend⟩, fun hfar => ?_⟩
    -- the hour after the first one lies between the two
    have hlt : (hourOf z call.startTime).val + 1 < 24 := by omega
    have hmid := (hall ⟨(hourOf z call.startTime).val + 1, hlt⟩).2
    rwa [generated_of_ne hne, if_neg (by simp [Fin.ext_iff]),
      if_neg (by simp [Fin.ext_iff]; omega), if_pos (by simp [Fin.lt_def]; omega)] at hmid
  · rintro ⟨⟨hstart, hend⟩, hbetween⟩ i
    rw [generated_of_ne hne]
    by_cases hi : hourOf z call.startTime = i
    · subst hi
      rwa [if_pos rfl, if_neg hne.symm, if_neg (by omega), add_zero, add_zero]
    · rw [if_neg hi, zero_add]
      by_cases hi' : hourOf z call.endTime = i
      · subst hi'
        rwa [if_pos rfl, if_neg (by omega), add_zero]
      · rw [if_neg hi', zero_add]
        by_cases hmid : hourOf z call.startTime < i ∧ i < hourOf z call.endTime
        · rw [if_pos hmid]
          have hfar : (hourOf z call.startTime).val + 1 < (hourOf z call.endTime).val := by
            rw [Fin.lt_def, Fin.lt_def] at hmid
            omega
          exact ⟨by decide, hbetween hfar⟩
        · rw [if_neg hmid]
          exact ⟨le_rfl, hlen⟩

/-! ## Under one offset -/

/-- One offset holds at the start, at the end and at the save of a session, and
resolves the two hour marks the save reads. -/
structure OneOffset (z : Zone) (offset : UtcOffset) (call : Call) : Prop where
  start : z.offsetAt call.startTime.microsecondsSinceEpoch = offset
  finish : z.offsetAt call.endTime.microsecondsSinceEpoch = offset
  save : z.offsetAt call.caller.microsecondsSinceEpoch = offset
  marks : ∀ k ∈ [((hourOf z call.startTime).val + 1 : ℤ), (hourOf z call.endTime).val],
    z.instantOf (days (call.caller.epochDay z) + k * microsecondsPerHour)
      = days (call.caller.epochDay z) + k * microsecondsPerHour
        - offset.seconds * microsecondsPerSecond

/-- The seconds left of the clock hour a session starts in; a whole hour counts
sixty. -/
def leftOfHour (z : Zone) (call : Call) : ℤ :=
  if call.startTime.wallClock z % microsecondsPerHour = 0 then 60
  else (microsecondsPerHour - call.startTime.wallClock z % microsecondsPerHour)
    / microsecondsPerSecond

/-- The seconds begun of the clock hour a session ends in, up to the last one. -/
def begunOfHour (z : Zone) (call : Call) : ℤ :=
  (-(-(call.endTime.wallClock z % microsecondsPerHour) / microsecondsPerSecond)) % 3600

/-- The session lasted for what is left of its first hour and twenty-four minutes
for every midnight until the save; and its last hour has twenty-four minutes, one
given, for every midnight between its end and the save. -/
def InTime (z : Zone) (call : Call) : Prop :=
  leftOfHour z call + 1440 * (call.caller.epochDay z - call.startTime.epochDay z)
      ≤ inSeconds (call.endTime.difference call.startTime)
    ∧ 1440 * (call.caller.epochDay z - call.endTime.epochDay z) - 60 ≤ begunOfHour z call

section Late

variable {offset : UtcOffset} (h : SavedAfter z call) (ho : OneOffset z offset call)

include h ho

theorem wallClocks :
    call.startTime.wallClock z
        = call.startTime.microsecondsSinceEpoch + offset.seconds * microsecondsPerSecond
      ∧ call.endTime.wallClock z
        = call.endTime.microsecondsSinceEpoch + offset.seconds * microsecondsPerSecond
      ∧ call.caller.wallClock z
        = call.caller.microsecondsSinceEpoch + offset.seconds * microsecondsPerSecond := by
  unfold DateTime.wallClock
  rw [h.startLocal, h.endLocal, h.callerLocal, ho.start, ho.finish, ho.save]
  exact ⟨rfl, rfl, rfl⟩

/-- A session lies before its save on the calendar too. -/
theorem days_le : call.startTime.epochDay z ≤ call.endTime.epochDay z
    ∧ call.endTime.epochDay z ≤ call.caller.epochDay z := by
  obtain ⟨hstart, hend, hsave⟩ := wallClocks h ho
  have hle := call.start_le_end
  have hsaved := h.saved
  simp only [DateTime.epochDay, hstart, hend, hsave, microsecondsPerDay]
  omega

/-- From the start to the end of its clock hour: what is left of the hour, and a
day for each midnight until the save. -/
theorem endOfHour_sub_start :
    (endOfHour z call (hourOf z call.startTime)).difference call.startTime
      = (microsecondsPerHour - call.startTime.wallClock z % microsecondsPerHour)
        + days (call.caller.epochDay z - call.startTime.epochDay z) := by
  have hsplit := wallClock_hourOf z call.startTime
  have hwall := (wallClocks h ho).1
  have hyear := h.readings call.readings.startYear (by simp [Readings.toList])
  have hmonth := h.readings call.readings.startMonth (by simp [Readings.toList])
  have hday := h.readings call.readings.startDay (by simp [Readings.toList])
  unfold DateTime.difference
  rw [endOfHour, DateTime.ofFields_of_epochDay hyear hmonth hday, zero_mul, add_zero,
    ho.marks _ (by simp)]
  simp only [days, microsecondsPerDay, microsecondsPerHour] at *
  omega

/-- From the start of its clock hour to the end: what is past the hour, less a day
for each midnight until the save. -/
theorem end_sub_startOfHour :
    call.endTime.difference (startOfHour z call (hourOf z call.endTime))
      = call.endTime.wallClock z % microsecondsPerHour
        - days (call.caller.epochDay z - call.endTime.epochDay z) := by
  have hsplit := wallClock_hourOf z call.endTime
  have hwall := (wallClocks h ho).2.1
  have hyear := h.readings call.readings.endYear (by simp [Readings.toList])
  have hmonth := h.readings call.readings.endMonth (by simp [Readings.toList])
  have hday := h.readings call.readings.endDay (by simp [Readings.toList])
  unfold DateTime.difference
  rw [startOfHour, DateTime.ofFields_of_epochDay hyear hmonth hday, zero_mul, add_zero,
    ho.marks _ (by simp)]
  simp only [days, microsecondsPerDay, microsecondsPerHour] at *
  omega

theorem toEnd_late :
    weighed (inSeconds ((endOfHour z call (hourOf z call.startTime)).difference call.startTime))
      = leftOfHour z call + 1440 * (call.caller.epochDay z - call.startTime.epochDay z) := by
  obtain ⟨hmn, hnk⟩ := days_le h ho
  have hpos : 0 ≤ microsecondsPerHour - call.startTime.wallClock z % microsecondsPerHour
      + days (call.caller.epochDay z - call.startTime.epochDay z) := by
    simp only [days, microsecondsPerDay, microsecondsPerHour]
    omega
  rw [endOfHour_sub_start h ho, inSeconds_of_nonneg hpos, weighed,
    Int.tdiv_eq_ediv_of_nonneg (Int.ediv_nonneg hpos (by decide))]
  unfold leftOfHour
  split <;>
    simp only [days, microsecondsPerDay, microsecondsPerHour, microsecondsPerSecond] at * <;> omega

/-- Between its midnight and the save, the last clock hour of a session can only
lose. -/
theorem fromStart_late :
    (0 ≤ weighed (inSeconds
          (call.endTime.difference (startOfHour z call (hourOf z call.endTime))))
        ↔ 1440 * (call.caller.epochDay z - call.endTime.epochDay z) - 60 ≤ begunOfHour z call)
      ∧ weighed (inSeconds (call.endTime.difference (startOfHour z call (hourOf z call.endTime))))
        ≤ call.endTime.wallClock z % microsecondsPerHour / microsecondsPerSecond := by
  have hend := (days_le h ho).2
  rw [end_sub_startOfHour h ho]
  unfold begunOfHour weighed
  rcases hend.eq_or_lt with hday | hday
  · have hpos : 0 ≤ call.endTime.wallClock z % microsecondsPerHour
        - days (call.caller.epochDay z - call.endTime.epochDay z) := by
      simp only [days, microsecondsPerDay, microsecondsPerHour]
      omega
    rw [inSeconds_of_nonneg hpos, Int.tdiv_eq_ediv_of_nonneg (Int.ediv_nonneg hpos (by decide))]
    simp only [days, microsecondsPerDay, microsecondsPerHour, microsecondsPerSecond]
    omega
  · -- below zero both divisions go up
    have hneg : call.endTime.wallClock z % microsecondsPerHour
          - days (call.caller.epochDay z - call.endTime.epochDay z)
        = -(days (call.caller.epochDay z - call.endTime.epochDay z)
          - call.endTime.wallClock z % microsecondsPerHour) := (neg_sub ..).symm
    have hpos : 0 ≤ days (call.caller.epochDay z - call.endTime.epochDay z)
        - call.endTime.wallClock z % microsecondsPerHour := by
      simp only [days, microsecondsPerDay, microsecondsPerHour]
      omega
    rw [hneg, inSeconds, Int.neg_tdiv, Int.tdiv_eq_ediv_of_nonneg hpos, Int.neg_tdiv,
      Int.tdiv_eq_ediv_of_nonneg (Int.ediv_nonneg hpos (by decide))]
    simp only [days, microsecondsPerDay, microsecondsPerHour, microsecondsPerSecond]
    omega

/-- A session over several clock hours lasts for the part of the last one, and for
the hours between. -/
theorem hours_le_length (hne : hourOf z call.startTime ≠ hourOf z call.endTime) :
    call.endTime.wallClock z % microsecondsPerHour / microsecondsPerSecond
        ≤ inSeconds (call.endTime.difference call.startTime)
      ∧ ((hourOf z call.startTime).val + 1 < (hourOf z call.endTime).val →
        60 ≤ inSeconds (call.endTime.difference call.startTime)) := by
  have hsplit := wallClock_hourOf z call.startTime
  have hsplit' := wallClock_hourOf z call.endTime
  have hvals := Fin.val_ne_of_ne hne
  have hle := call.start_le_end
  obtain ⟨hwall, hwall', -⟩ := wallClocks h ho
  have hdiff : 0 ≤ call.endTime.difference call.startTime := by
    unfold DateTime.difference
    omega
  rw [inSeconds_of_nonneg hdiff]
  unfold DateTime.difference
  simp only [days, microsecondsPerDay, microsecondsPerHour, microsecondsPerSecond] at *
  omega

/-- Under one offset a session fits when it is saved in time. -/
theorem fits_iff_inTime (hne : hourOf z call.startTime ≠ hourOf z call.endTime) :
    Fits z call ↔ InTime z call := by
  obtain ⟨hnonneg, hupper⟩ := fromStart_late h ho
  obtain ⟨hlast, hbetween⟩ := hours_le_length h ho hne
  obtain ⟨hmn, hnk⟩ := days_le h ho
  have hfirst : 0 ≤ leftOfHour z call
      + 1440 * (call.caller.epochDay z - call.startTime.epochDay z) := by
    unfold leftOfHour
    split <;> simp only [microsecondsPerHour, microsecondsPerSecond] at * <;> omega
  unfold Fits InTime
  simp only [List.forall_mem_cons, List.not_mem_nil, false_implies, implies_true, and_true]
  rw [toEnd_late h ho, ← hnonneg]
  constructor
  · rintro ⟨⟨hstart, hend⟩, -⟩
    exact ⟨hstart.2, hend.1⟩
  · rintro ⟨hstart, hend⟩
    exact ⟨⟨⟨hfirst, hstart⟩, hend, hupper.trans hlast⟩, hbetween⟩

end Late

/-- In bounds, for any zone. -/
theorem within_iff (h : SavedAfter z call) (docs : Collection) :
    (∀ i, 0 ≤ written z docs call i - hoursOf docs (formatDate z call.caller) i
        ∧ written z docs call i - hoursOf docs (formatDate z call.caller) i
          ≤ inSeconds (call.endTime.difference call.startTime))
      ↔ (docs.lookup (formatDate z call.caller)).isSome = true
        ∨ hourOf z call.startTime = hourOf z call.endTime ∨ Fits z call := by
  rw [written_eq h.onOneDay, hoursOf]
  by_cases hne : hourOf z call.startTime = hourOf z call.endTime
  · -- the same path for every list
    refine iff_of_true (fun i => ?_) (.inr (.inl hne))
    rw [hoursAfter_of_eq hne, Hours.add_apply, add_sub_cancel_left]
    have hlen := call.inSeconds_nonneg
    have hle : call.diffInt ≤ inSeconds (call.endTime.difference call.startTime) :=
      total_le hlen
    have hpos := call.diffInt_nonneg
    split <;> omega
  · rw [or_iff_right hne]
    cases hdoc : docs.lookup (formatDate z call.caller) with
    | some doc =>
        refine iff_of_true (fun i => ?_) (.inl rfl)
        have hsame : call.hoursAfter z ((some doc).map (·.hours)) = doc.hours :=
          added_of_ne hne doc.hours
        rw [hsame, Option.map_some, Option.getD_some, sub_self]
        exact ⟨le_rfl, call.inSeconds_nonneg⟩
    | none =>
        rw [or_iff_right (by simp), ← generated_bounds_iff hne]
        simp only [Option.map_none, Option.getD_none, sub_zero]
        rfl

/-- **No hour is credited more than the session lasted**, and none loses: on a day
with a record, within one clock hour, and else for a session that fits its marks.
Under one offset that is a session saved in time. -/
theorem bounded_iff (h : SavedAfter z call) (docs : Collection) :
    ((∀ i, 0 ≤ written z docs call i - hoursOf docs (formatDate z call.caller) i
        ∧ written z docs call i - hoursOf docs (formatDate z call.caller) i
          ≤ inSeconds (call.endTime.difference call.startTime))
      ↔ (docs.lookup (formatDate z call.caller)).isSome = true
        ∨ hourOf z call.startTime = hourOf z call.endTime ∨ Fits z call)
    ∧ ∀ offset, OneOffset z offset call →
      ((∀ i, 0 ≤ written z docs call i - hoursOf docs (formatDate z call.caller) i
          ∧ written z docs call i - hoursOf docs (formatDate z call.caller) i
            ≤ inSeconds (call.endTime.difference call.startTime))
        ↔ (docs.lookup (formatDate z call.caller)).isSome = true
          ∨ hourOf z call.startTime = hourOf z call.endTime ∨ InTime z call) := by
  refine ⟨within_iff h docs, fun offset ho => ?_⟩
  rw [within_iff h docs]
  by_cases hne : hourOf z call.startTime = hourOf z call.endTime
  · exact iff_of_true (.inr (.inl hne)) (.inr (.inl hne))
  · rw [fits_iff_inTime h ho hne]

/-- Twenty seconds over the midnight after 1 June, saved as they end. -/
def overMidnight : Call where
  duration := 20
  caller := june 86410
  startTime := june 86390
  endTime := june 86410
  readings := .at (june 86410)
  duration_nonneg := by decide
  start_le_end := by decide
  inOrder := by decide

theorem savedAfter_overMidnight : SavedAfter utc overMidnight where
  startLocal := rfl
  endLocal := rfl
  callerLocal := rfl
  saved := by decide
  readings := by decide

/-- The hour before midnight gains ten seconds, and a day's twenty-four hours. -/
theorem not_bounded :
    (¬ ∀ i, 0 ≤ written utc [] overMidnight i - hoursOf [] (formatDate utc overMidnight.caller) i
        ∧ written utc [] overMidnight i - hoursOf [] (formatDate utc overMidnight.caller) i
          ≤ inSeconds (overMidnight.endTime.difference overMidnight.startTime))
      ∧ inSeconds (overMidnight.endTime.difference overMidnight.startTime) = 20
      ∧ written utc [] overMidnight 23 = 1450 :=
  ⟨fun h => absurd (h 23).2 (by decide), rfl, rfl⟩

theorem bounded_iff_overMidnight :
    ((∀ i, 0 ≤ written utc [] overMidnight i - hoursOf [] (formatDate utc overMidnight.caller) i
        ∧ written utc [] overMidnight i - hoursOf [] (formatDate utc overMidnight.caller) i
          ≤ inSeconds (overMidnight.endTime.difference overMidnight.startTime))
      ↔ (List.lookup (formatDate utc overMidnight.caller) ([] : Collection)).isSome = true
        ∨ hourOf utc overMidnight.startTime = hourOf utc overMidnight.endTime
        ∨ Fits utc overMidnight)
    ∧ ((∀ i, 0 ≤ written utc [] overMidnight i - hoursOf [] (formatDate utc overMidnight.caller) i
        ∧ written utc [] overMidnight i - hoursOf [] (formatDate utc overMidnight.caller) i
          ≤ inSeconds (overMidnight.endTime.difference overMidnight.startTime))
      ↔ (List.lookup (formatDate utc overMidnight.caller) ([] : Collection)).isSome = true
        ∨ hourOf utc overMidnight.startTime = hourOf utc overMidnight.endTime
        ∨ InTime utc overMidnight) := by
  have h := bounded_iff savedAfter_overMidnight []
  exact ⟨h.1, h.2 .utc ⟨rfl, rfl, rfl, fun _ _ => rfl⟩⟩

end AquaFocus.FocusLate
