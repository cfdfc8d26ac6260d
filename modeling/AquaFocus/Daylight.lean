/-
Zones that change their offset: the weekly reward.

The rules of `Reward.lean` are about zones of constant offset. Where a zone has
daylight saving, two local midnights are not whole days apart, and the weekly
test counts the days between them by rounding their distance in hours. The
midnights of such a zone have offsets an hour or two apart, and up to half a day
would be rounded away: the test is right there too (`weeklyReward_iff`).
-/
import AquaFocus.AddTask
import AquaFocus.Reward

set_option autoImplicit false

open Dart

namespace AquaFocus.Daylight

/-! ## A zone with daylight saving -/

/-- The end of summer time in central Europe, 30 October 2022 at one in the
morning UTC. -/
def summerEnd : ℤ := seconds 1667091600

/-- Two hours ahead of UTC before it, and one from then on. -/
def summerOffset (x : ℤ) : UtcOffset :=
  if x < summerEnd then ⟨7200, by decide, by decide⟩ else ⟨3600, by decide, by decide⟩

/-- A wall clock shown twice is the earlier of the two. -/
def summerInstant (w : ℤ) : ℤ :=
  if w - seconds 7200 < summerEnd then w - seconds 7200 else w - seconds 3600

/-- Every wall clock is shown at the instant it is resolved to. -/
theorem summerInstant_add (w : ℤ) :
    summerInstant w + (summerOffset (summerInstant w)).seconds * microsecondsPerSecond = w := by
  unfold summerInstant
  by_cases h : w - seconds 7200 < summerEnd
  · rw [if_pos h, summerOffset, if_pos h]
    exact sub_add_cancel _ _
  · have hlater : ¬ w - seconds 3600 < summerEnd := by
      simp only [seconds, microsecondsPerSecond] at *
      omega
    rw [if_neg h, summerOffset, if_neg hlater]
    exact sub_add_cancel _ _

def centralEurope : Zone := .ofDates summerOffset summerInstant
  (fun w => Dvd.intro_left _ (eq_sub_of_add_eq' (summerInstant_add w)))
  (fun w => by
    rw [summerInstant_add]
    omega)
  (fun w => by
    rw [summerInstant_add]
    omega)

theorem summerOffset_bounds (x : ℤ) :
    3600 ≤ (summerOffset x).seconds ∧ (summerOffset x).seconds ≤ 7200 := by
  unfold summerOffset
  split <;> decide

theorem offsetsNear_centralEurope : centralEurope.OffsetsNear := by
  intro x y
  have hx := summerOffset_bounds x
  have hy := summerOffset_bounds y
  change (summerOffset x).seconds - (summerOffset y).seconds < 86400
  omega

/-- All its midnights are on the clock. -/
theorem isMidnight_centralEurope (n : ℤ) :
    DateTime.IsMidnight ⟨centralEurope.instantOf (days n), false⟩ centralEurope n :=
  ⟨rfl, summerInstant_add (days n)⟩

/-! ## The weekly reward -/

/-- **The weekly reward is exact**: where the offsets of any two midnights are two
hours apart at most, the days between two values are counted right, and a weekly
task is paid exactly in another week than its last completion. -/
theorem weeklyReward_iff {z : Zone}
    (h : ∀ m n, z.midnightOffset m - z.midnightOffset n ≤ 2 * microsecondsPerHour) (c : Clock)
    {task : AppTask} (hr : task.repeats = .weekly)
    (hle : task.prevCompletionTime.epochDay z ≤ c.now.epochDay z) :
    (giveMoney z c task = true
        ↔ Civil.weekOf (task.prevCompletionTime.epochDay z) ≠ Civil.weekOf (c.now.epochDay z))
      ∧ ∀ t u : DateTime, daysBetween z t u = u.epochDay z - t.epochDay z := by
  have hdays : ∀ t u : DateTime, daysBetween z t u = u.epochDay z - t.epochDay z := by
    intro t u
    have hlo := h (u.epochDay z) (t.epochDay z)
    have hhi := h (t.epochDay z) (u.epochDay z)
    simp only [microsecondsPerHour] at hlo hhi
    apply daysBetween_eq
    · simp only [microsecondsPerHour]
      omega
    · simp only [microsecondsPerHour]
      omega
  refine ⟨?_, hdays⟩
  rw [giveMoney_weekly hr (hdays _ _), Civil.weekOf_ne_iff hle, decide_eq_true_eq]

/-- A weekly task completed on Monday, 24 October 2022, at nine, and looked at a
week later, when the clock has gone back. -/
theorem weeklyReward_iff_monday :
    (giveMoney centralEurope (.read centralEurope (.ofMillis 1667203200000))
        { AppTask.fromDS "doc" (swim .weekly) with
          prevCompletionTime := .ofMillis 1666594800000 } = true
      ↔ Civil.weekOf ((DateTime.ofMillis 1666594800000).epochDay centralEurope)
        ≠ Civil.weekOf ((DateTime.ofMillis 1667203200000).epochDay centralEurope))
    ∧ ∀ t u : DateTime,
      daysBetween centralEurope t u = u.epochDay centralEurope - t.epochDay centralEurope := by
  refine weeklyReward_iff (fun m n => ?_) (.read centralEurope (.ofMillis 1667203200000)) rfl
    (by decide)
  have hm := (summerOffset_bounds (summerInstant (days m))).2
  have hn := (summerOffset_bounds (summerInstant (days n))).1
  rw [(isMidnight_centralEurope m).midnightOffset_eq,
    (isMidnight_centralEurope n).midnightOffset_eq]
  simp only [microsecondsPerHour, microsecondsPerSecond]
  change (summerOffset (summerInstant (days m))).seconds * 1000000
    - (summerOffset (summerInstant (days n))).seconds * 1000000 ≤ 2 * 3600000000
  omega

end AquaFocus.Daylight
