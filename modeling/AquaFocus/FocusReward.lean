/-
What a focus session is worth.

Both timers split the seconds of a session with `timeString`, parse the three
strings, and add them up with sixty for a minute and sixty for an hour; the sum
is credited, and it is what `saveFocusTime` adds to the time of the day. So a
session of less than an hour is worth its seconds, and a longer one is not
(`worth_iff`).
-/
import AquaFocus.CountUp
import AquaFocus.FocusTime

set_option autoImplicit false

open Dart

namespace AquaFocus.FocusReward

open FocusTime (Collection Call formatDate getTimeOfTheDay saveFocusTime)

/-- A session of `n` seconds is worth `n`: to whoever parses the strings, in the
coins of either screen, and in the record of the day. -/
structure Worth (n : ℤ) : Prop where
  parsed : parsedTotal (timeString n).strings = some n
  countDown : ∀ (now : DateTime) (s : CountDown.Screen), s.initialDur = n →
    (s.completeTaskDialog now).paid = s.paid ++ [⟨n, now, s.startTime, s.endTime⟩]
      ∧ (s.completeTaskDialog now).fishMoney = s.fishMoney + n
  countUp : ∀ (now : DateTime) (s : CountUp.Screen), s.duration = n →
    (s.completeTaskDialog now).paid = s.paid ++ [⟨n, now, s.startTime, some now⟩]
      ∧ (s.completeTaskDialog now).fishMoney = s.fishMoney + n
  recorded : ∀ (z : Zone) (docs : Collection) (call : Call),
    call.duration = (timeString n).total →
    getTimeOfTheDay (saveFocusTime z docs call) (formatDate z call.caller)
      = getTimeOfTheDay docs (formatDate z call.caller) + n

/-- `saveFocusTime` adds its duration to the caller's day, on either path. -/
theorem getTimeOfTheDay_saveFocusTime (z : Zone) (docs : Collection) (call : Call) :
    getTimeOfTheDay (saveFocusTime z docs call) (formatDate z call.caller)
      = getTimeOfTheDay docs (formatDate z call.caller) + call.duration := by
  unfold getTimeOfTheDay
  cases hdoc : docs.lookup (formatDate z call.caller) with
  | some doc =>
      rw [FocusTime.saveFocusTime_of_some hdoc, FocusTime.lookup_set, if_pos rfl]
      rfl
  | none =>
      rw [FocusTime.saveFocusTime_of_none hdoc, FocusTime.lookup_set, if_pos rfl]
      exact (zero_add call.duration).symm

/-- The sum gives every full hour sixty. -/
theorem total_eq_iff {n : ℤ} (hn : 0 ≤ n) : (timeString n).total = n ↔ n < 3600 := by
  rw [total_timeString, Int.tdiv_eq_ediv_of_nonneg hn]
  omega

/-- A session earns no less than another when sixty for each full hour it has
more make up for the seconds it has fewer. -/
theorem total_le_total_iff {m n : ℤ} (hm : 0 ≤ m) (hn : 0 ≤ n) :
    (timeString m).total ≤ (timeString n).total
      ↔ m % 3600 - n % 3600 ≤ (n / 3600 - m / 3600) * 60 := by
  rw [total_timeString, total_timeString, Int.tdiv_eq_ediv_of_nonneg hm,
    Int.tdiv_eq_ediv_of_nonneg hn]
  omega

/-- **The reward** for `n` seconds is `n` exactly below an hour, and a longer
session earns no less than a shorter one exactly when the sixties for its full
hours make up for the seconds past them. -/
theorem worth_iff {n : ℤ} (hn : 0 ≤ n) :
    (Worth n ↔ n < 3600)
      ∧ ∀ m, 0 ≤ m → m ≤ n →
        ((timeString m).total ≤ (timeString n).total
          ↔ m % 3600 - n % 3600 ≤ (n / 3600 - m / 3600) * 60) := by
  refine ⟨⟨fun h => ?_, fun hlt => ?_⟩, fun m hm _ => total_le_total_iff hm hn⟩
  · have htotal := h.parsed
    rw [parsedTotal_strings, Option.some.injEq] at htotal
    exact (total_eq_iff hn).mp htotal
  · have htotal : (timeString n).total = n := (total_eq_iff hn).mpr hlt
    refine ⟨?_, fun now s hs => ?_, fun now s hs => ?_, fun z docs call hcall => ?_⟩
    · rw [parsedTotal_strings, htotal]
    · simp only [CountDown.Screen.completeTaskDialog, hs, htotal, and_self]
    · simp only [CountUp.Screen.completeTaskDialog, hs, htotal, and_self]
    · rw [getTimeOfTheDay_saveFocusTime, hcall, htotal]

/-- An hour earns a minute's sixty, and a second less than an hour earns more. -/
theorem not_worth :
    ¬ Worth 3600 ∧ parsedTotal (timeString 3600).strings = some 60
      ∧ parsedTotal (timeString 3599).strings = some 3599 := by
  refine ⟨fun h => ?_, by decide, by decide⟩
  have htotal := h.parsed
  rw [show parsedTotal (timeString 3600).strings = some 60 by decide] at htotal
  exact absurd htotal (by decide)

/-- The countdown's default, twenty-five minutes. -/
theorem worth_iff_default :
    (Worth 1500 ↔ (1500 : ℤ) < 3600)
      ∧ ∀ m, 0 ≤ m → m ≤ 1500 →
        ((timeString m).total ≤ (timeString 1500).total
          ↔ m % 3600 - 1500 % 3600 ≤ (1500 / 3600 - m / 3600) * 60) :=
  worth_iff (by decide)

end AquaFocus.FocusReward
