/-
The seconds of a session, hour by hour.

`secondsIn` counts the seconds of a session that show a clock hour, and
`split_iff` says when the first save of a day writes these numbers. An hour that
is taken whole is written as sixty, the one the session starts in as well as
those after it.
-/
import AquaFocus.FocusHours
import Mathlib.Algebra.BigOperators.Fin

set_option autoImplicit false

open Dart

namespace AquaFocus.FocusSplit

open FocusTime hiding step
open FocusHours

variable {z : Zone} {call : Call}

/-! ## Seconds and clock hours -/

/-- How many of the seconds from `a` on to `b` show hour `k`. -/
def secondsIn (z : Zone) (a b : ℤ) (k : Fin 24) : ℕ :=
  ((Finset.range (b - a).toNat).filter fun i : ℕ =>
    AtHour z (.ofMicros (seconds (a + i))) k).card

/-- The clock hour a value lies in, counted from the epoch on. -/
def hourNumber (z : Zone) (t : DateTime) : ℤ := t.wallClock z / microsecondsPerHour

/-- A session within one clock hour, or out of the inside of one into the next of
the same day. -/
def WithinTwo (z : Zone) (call : Call) : Prop :=
  hourNumber z call.endTime = hourNumber z call.startTime
    ∨ hourNumber z call.endTime = hourNumber z call.startTime + 1
      ∧ call.startTime.wallClock z % microsecondsPerHour ≠ 0
      ∧ call.endTime.epochDay z = call.startTime.epochDay z

theorem secondsIn_add {a b c : ℤ} (hab : a ≤ b) (hbc : b ≤ c) (k : Fin 24) :
    secondsIn z a c k = secondsIn z a b k + secondsIn z b c k := by
  have hlen : (c - a).toNat = (b - a).toNat + (c - b).toNat := by omega
  unfold secondsIn
  rw [hlen, Finset.card_filter, Finset.card_filter, Finset.card_filter, Finset.sum_range_add]
  congr 1
  apply Finset.sum_congr rfl
  intro i _
  have hsecond : a + ((b - a).toNat + i : ℕ) = b + i := by omega
  rw [hsecond]

/-- Seconds that all show one hour. -/
theorem secondsIn_of_atHour {a b : ℤ} (hab : a ≤ b) {h : Fin 24}
    (hall : ∀ s, a ≤ s → s < b → AtHour z (.ofMicros (seconds s)) h) (k : Fin 24) :
    (secondsIn z a b k : ℤ) = if h = k then b - a else 0 := by
  have hat : ∀ i ∈ Finset.range (b - a).toNat, AtHour z (.ofMicros (seconds (a + i))) h := by
    intro i hi
    have hlt := Finset.mem_range.mp hi
    exact hall _ (by omega) (by omega)
  unfold secondsIn
  by_cases hk : h = k
  · subst hk
    rw [if_pos rfl, Finset.filter_true_of_mem hat, Finset.card_range]
    omega
  · have hnone : ∀ i ∈ Finset.range (b - a).toNat,
        ¬ AtHour z (.ofMicros (seconds (a + i))) k := by
      intro i hi hother
      exact hk ((atHour_iff (hat i hi) k).mp hother).symm
    rw [if_neg hk, Finset.filter_false_of_mem hnone, Finset.card_empty, Nat.cast_zero]

/-- Every second shows one hour. -/
theorem sum_secondsIn {a b : ℤ} (hab : a ≤ b) : ∑ k, (secondsIn z a b k : ℤ) = b - a := by
  have hsum := Finset.card_eq_sum_card_fiberwise (s := Finset.range (b - a).toNat)
    (t := Finset.univ) (f := fun i : ℕ => hourOf z (.ofMicros (seconds (a + i))))
    fun _ _ => Finset.mem_coe.mpr (Finset.mem_univ _)
  have hhour : ∀ (k : Fin 24) (i : ℕ), AtHour z (.ofMicros (seconds (a + i))) k
      ↔ hourOf z (.ofMicros (seconds (a + i))) = k := by
    intro k i
    rw [atHour_iff (atHour_hourOf z _), eq_comm]
  simp only [secondsIn, hhour]
  rw [← Nat.cast_sum, ← hsum, Finset.card_range]
  omega

/-- What a session over several clock hours adds in all to an empty list. -/
theorem sum_generated_of_ne (hne : hourOf z call.startTime ≠ hourOf z call.endTime) :
    ∑ i, call.generated z i
      = differenceInt (endOfHour z call (hourOf z call.startTime)) call.startTime
        + differenceInt call.endTime (startOfHour z call (hourOf z call.endTime))
        + 60 * ((hourOf z call.endTime).val - (hourOf z call.startTime).val - 1 : ℕ) := by
  simp only [generated_of_ne hne, Finset.sum_add_distrib, Finset.sum_ite_eq, Finset.mem_univ,
    if_true]
  have hbetween : Finset.univ.filter (fun i => hourOf z call.startTime < i
      ∧ i < hourOf z call.endTime) = Finset.Ioo (hourOf z call.startTime)
        (hourOf z call.endTime) := by
    ext i
    simp
  rw [← Finset.sum_filter, hbetween, Finset.sum_const, Fin.card_Ioo, nsmul_eq_mul, mul_comm]

section WholeSeconds

variable {t : DateTime} {w : ℤ} (hw : t.wallClock z = seconds w)

include hw

theorem epochDay_of_seconds : t.epochDay z = w / 86400 := by
  rw [DateTime.epochDay, hw]
  simp only [seconds, microsecondsPerSecond, microsecondsPerDay]
  omega

theorem atHour_of_seconds (k : Fin 24) : AtHour z t k ↔ (k.val : ℤ) = w % 86400 / 3600 := by
  have hhour : t.hour z = w % 86400 / 3600 := by
    rw [DateTime.hour, hw]
    simp only [seconds, microsecondsPerSecond, microsecondsPerDay, microsecondsPerHour]
    omega
  rw [AtHour, hhour]

theorem val_hourOf_of_seconds : ((hourOf z t).val : ℤ) = w % 86400 / 3600 :=
  (atHour_of_seconds hw _).mp (atHour_hourOf z t)

theorem hourNumber_of_seconds : hourNumber z t = w / 3600 := by
  rw [hourNumber, hw]
  simp only [seconds, microsecondsPerSecond, microsecondsPerHour]
  omega

theorem pastHour_of_seconds : t.wallClock z % microsecondsPerHour = seconds (w % 3600) := by
  rw [hw]
  simp only [seconds, microsecondsPerSecond, microsecondsPerHour]
  omega

end WholeSeconds

section Split

variable {offset : UtcOffset} {n a b : ℤ} (h : SavedOn z offset n n call)
  (ha : call.startTime = .ofMicros (seconds a)) (hb : call.endTime = .ofMicros (seconds b))

include h ha hb

/-- The wall clock at a second of the session. -/
theorem wallClock_seconds {s : ℤ} (hlo : a ≤ s) (hhi : s ≤ b) :
    (DateTime.ofMicros (seconds s)).wallClock z = seconds (s + offset.seconds) := by
  have hstart := h.start_le
  have hend := h.end_le
  rw [ha] at hstart
  rw [hb] at hend
  rw [h.steady.wallClock rfl]
  all_goals
    simp only [DateTime.ofMicros, seconds, microsecondsPerSecond] at *
    omega

omit h in
theorem seconds_le : a ≤ b := by
  have hle := call.start_le_end
  rw [ha, hb] at hle
  simp only [DateTime.ofMicros, seconds, microsecondsPerSecond] at hle
  omega

theorem wallClock_start_seconds : call.startTime.wallClock z = seconds (a + offset.seconds) := by
  rw [ha]
  exact wallClock_seconds h ha hb le_rfl (seconds_le ha hb)

theorem wallClock_end_seconds : call.endTime.wallClock z = seconds (b + offset.seconds) := by
  rw [hb]
  exact wallClock_seconds h ha hb (seconds_le ha hb) le_rfl

/-- The day of the session, in seconds of the wall clock. -/
theorem day_bounds : 86400 * n ≤ a + offset.seconds
    ∧ a + offset.seconds < 86400 * (n + 1) ∧ b + offset.seconds ≤ 86400 * (n + 1) := by
  have hlo := h.start_le
  have hlt := h.start_lt
  have hhi := h.end_le
  rw [ha] at hlo hlt
  rw [hb] at hhi
  simp only [DateTime.ofMicros, DateTime.dayStart, seconds, days, microsecondsPerSecond,
    microsecondsPerDay] at *
  omega

/-- To the end of the first clock hour, as `timeString` counts it. -/
theorem toEnd_eq : differenceInt (endOfHour z call (hourOf z call.startTime)) call.startTime
    = if (a + offset.seconds) % 3600 = 0 then 60 else 3600 - (a + offset.seconds) % 3600 := by
  have hdiff : (endOfHour z call (hourOf z call.startTime)).difference call.startTime
      = seconds (3600 - (a + offset.seconds) % 3600) := by
    rw [h.endOfHour_sub_start, pastHour_of_seconds (wallClock_start_seconds h ha hb), sub_self,
      days, zero_mul, add_zero]
    simp only [seconds, microsecondsPerSecond, microsecondsPerHour]
    omega
  have hpos : 0 ≤ 3600 - (a + offset.seconds) % 3600 := by omega
  rw [differenceInt, hdiff, inSeconds_seconds, total_timeString,
    Int.tdiv_eq_ediv_of_nonneg hpos]
  split <;> omega

/-- From the start of the last clock hour, as `timeString` counts it; for the
midnight after the day that is a day's twenty-four hours. -/
theorem fromStart_eq : differenceInt call.endTime (startOfHour z call (hourOf z call.endTime))
    = if (b + offset.seconds) / 86400 = n then (b + offset.seconds) % 3600 else 1440 := by
  have hwall := wallClock_end_seconds h ha hb
  obtain ⟨hlo, -, hhi⟩ := day_bounds h ha hb
  have hab := seconds_le ha hb
  have hdiff : call.endTime.difference (startOfHour z call (hourOf z call.endTime))
      = seconds ((b + offset.seconds) % 3600 - 86400 * (n - (b + offset.seconds) / 86400)) := by
    rw [h.end_sub_startOfHour, pastHour_of_seconds hwall, epochDay_of_seconds hwall]
    simp only [seconds, days, microsecondsPerSecond, microsecondsPerDay]
    omega
  have hpos : 0 ≤ (b + offset.seconds) % 3600
      - 86400 * (n - (b + offset.seconds) / 86400) := by omega
  rw [differenceInt, hdiff, inSeconds_seconds, total_timeString,
    Int.tdiv_eq_ediv_of_nonneg hpos]
  split <;> omega

omit h in
/-- What a session between two values of one clock hour leaves in an empty list. -/
theorem generated_of_eq (hsame : hourOf z call.startTime = hourOf z call.endTime) (k : Fin 24) :
    call.generated z k
      = if hourOf z call.startTime = k then (timeString (b - a)).total else 0 := by
  have hsub : call.endTime.difference call.startTime = seconds (b - a) := by
    rw [ha, hb, DateTime.difference]
    simp only [DateTime.ofMicros, seconds]
    ring
  have hafter := hoursAfter_of_eq hsame none
  rw [Call.diffInt, differenceInt, hsub, inSeconds_seconds] at hafter
  refine (congrFun hafter k).trans ?_
  rw [Hours.add_apply, Option.getD_none, zero_add]

/-- The clock hours of the two ends, in seconds of the wall clock. -/
theorem val_hours : ((hourOf z call.startTime).val : ℤ) = (a + offset.seconds) % 86400 / 3600
    ∧ ((hourOf z call.endTime).val : ℤ) = (b + offset.seconds) % 86400 / 3600 :=
  ⟨val_hourOf_of_seconds (wallClock_start_seconds h ha hb),
    val_hourOf_of_seconds (wallClock_end_seconds h ha hb)⟩

theorem withinTwo_iff : WithinTwo z call
    ↔ (b + offset.seconds) / 3600 = (a + offset.seconds) / 3600
      ∨ (b + offset.seconds) / 3600 = (a + offset.seconds) / 3600 + 1
        ∧ (a + offset.seconds) % 3600 ≠ 0
        ∧ (b + offset.seconds) / 86400 = (a + offset.seconds) / 86400 := by
  have hstart := wallClock_start_seconds h ha hb
  have hend := wallClock_end_seconds h ha hb
  unfold WithinTwo
  rw [hourNumber_of_seconds hstart, hourNumber_of_seconds hend, epochDay_of_seconds hstart,
    epochDay_of_seconds hend, pastHour_of_seconds hstart]
  simp only [seconds, microsecondsPerSecond]
  omega

/-- Where nothing is missing, the session is within an hour or two. -/
theorem withinTwo_of_sum (hsum : ∑ k, call.generated z k = b - a) : WithinTwo z call := by
  obtain ⟨hhour, hhour'⟩ := val_hours h ha hb
  obtain ⟨hlo, hlt, hhi⟩ := day_bounds h ha hb
  have hab := seconds_le ha hb
  rw [withinTwo_iff h ha hb]
  by_cases hsame : hourOf z call.startTime = hourOf z call.endTime
  · -- less than an hour, or `timeString` loses the rest of it
    have hvals : (hourOf z call.startTime).val = (hourOf z call.endTime).val := congrArg _ hsame
    simp only [generated_of_eq ha hb hsame, Finset.sum_ite_eq, Finset.mem_univ, if_true] at hsum
    rw [total_timeString, Int.tdiv_eq_ediv_of_nonneg (by omega)] at hsum
    omega
  · have hvals := Fin.val_ne_of_ne hsame
    rw [sum_generated_of_ne hsame, toEnd_eq h ha hb, fromStart_eq h ha hb] at hsum
    split at hsum <;> split at hsum <;> omega

/-- A session within one clock hour. -/
theorem generated_of_sameHour
    (hsame : (b + offset.seconds) / 3600 = (a + offset.seconds) / 3600) (k : Fin 24) :
    call.generated z k = secondsIn z a b k := by
  obtain ⟨hhour, hhour'⟩ := val_hours h ha hb
  obtain ⟨hlo, hlt, hhi⟩ := day_bounds h ha hb
  have hab := seconds_le ha hb
  have hsame' : hourOf z call.startTime = hourOf z call.endTime := Fin.ext (by omega)
  have hall : ∀ s, a ≤ s → s < b →
      AtHour z (.ofMicros (seconds s)) (hourOf z call.startTime) := by
    intro s hs hs'
    rw [atHour_of_seconds (wallClock_seconds h ha hb hs hs'.le)]
    omega
  have hpos : 0 ≤ b - a := by omega
  have htotal : (timeString (b - a)).total = b - a := by
    rw [total_timeString, Int.tdiv_eq_ediv_of_nonneg hpos]
    omega
  rw [generated_of_eq ha hb hsame', secondsIn_of_atHour hab hall k, htotal]

/-- A session from inside one clock hour into the next. -/
theorem generated_of_nextHour
    (hnext : (b + offset.seconds) / 3600 = (a + offset.seconds) / 3600 + 1)
    (hinside : (a + offset.seconds) % 3600 ≠ 0)
    (hday : (b + offset.seconds) / 86400 = (a + offset.seconds) / 86400) (k : Fin 24) :
    call.generated z k = secondsIn z a b k := by
  obtain ⟨hhour, hhour'⟩ := val_hours h ha hb
  obtain ⟨hlo, hlt, hhi⟩ := day_bounds h ha hb
  have hne : hourOf z call.startTime ≠ hourOf z call.endTime := fun heq => by
    have hvals : (hourOf z call.startTime).val = (hourOf z call.endTime).val := congrArg _ heq
    omega
  -- the mark between the two hours
  obtain ⟨c, hc⟩ : ∃ c, c + offset.seconds = (b + offset.seconds) / 3600 * 3600 :=
    ⟨(b + offset.seconds) / 3600 * 3600 - offset.seconds, sub_add_cancel ..⟩
  have hac : a ≤ c := by omega
  have hcb : c ≤ b := by omega
  have hbefore : ∀ s, a ≤ s → s < c →
      AtHour z (.ofMicros (seconds s)) (hourOf z call.startTime) := by
    intro s hs hs'
    rw [atHour_of_seconds (wallClock_seconds h ha hb hs (hs'.le.trans hcb))]
    omega
  have hafter : ∀ s, c ≤ s → s < b →
      AtHour z (.ofMicros (seconds s)) (hourOf z call.endTime) := by
    intro s hs hs'
    rw [atHour_of_seconds (wallClock_seconds h ha hb (hac.trans hs) hs'.le)]
    omega
  have hnone : ¬ (hourOf z call.startTime < k ∧ k < hourOf z call.endTime) := by
    rw [Fin.lt_def, Fin.lt_def]
    omega
  have hleft : 3600 - (a + offset.seconds) % 3600 = c - a := by omega
  have hright : (b + offset.seconds) % 3600 = b - c := by omega
  have hday' : (b + offset.seconds) / 86400 = n := by omega
  rw [generated_of_ne hne, toEnd_eq h ha hb, fromStart_eq h ha hb, if_neg hnone, if_neg hinside,
    if_pos hday', hleft, hright, secondsIn_add hac hcb, Nat.cast_add,
    secondsIn_of_atHour hac hbefore, secondsIn_of_atHour hcb hafter, add_zero]

end Split

/-- Two hours from ten on. -/
def tenToTwelve : Call where
  duration := 7200
  caller := june 43200
  startTime := june 36000
  endTime := june 43200
  readings := .at (june 43200)
  duration_nonneg := by decide
  start_le_end := by decide
  inOrder := by decide

end AquaFocus.FocusSplit
