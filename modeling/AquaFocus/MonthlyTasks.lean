/-
Monthly tasks, by their calendar months.

`findNextTime` adds a month to the date it holds, and the constructor carries a
day the month does not have over into the month after. From then on the date it
adds to is the shifted one (`orbit_cases`), so `monthly_iff` asks that no month
on the way is too short. `giveMoney` compares the numbers of two months and
forgets the years (`giveMoney_monthly`); `monthlyReward_iff` says when that
makes no difference.
-/
import AquaFocus.NextDay

set_option autoImplicit false

open Dart Loop

namespace AquaFocus.MonthlyTasks

open AquaFocus.Reschedule

/-! ## Adding months -/

/-- Day `d` of month `k`, carried over where the month is too short. -/
def dayIn (k d : ℤ) : ℤ := Civil.monthStart k + (d - 1)

theorem monthStep_eq (n : ℤ) : monthStep n = dayIn (Civil.monthIndex n + 1) (Civil.dayOf n) := by
  rw [monthStep, Civil.dayNumber_eq, dayIn, Civil.monthIndex]
  ring_nf

theorem dayIn_self (n : ℤ) : dayIn (Civil.monthIndex n) (Civil.dayOf n) = n :=
  Civil.monthStart_add_dayOf n

/-- The months after the month of day `n`, up to the `k`-th, all have its day. -/
def Long (n : ℤ) (k : ℕ) : Prop :=
  ∀ j : ℕ, 1 ≤ j → j ≤ k → Civil.dayOf n ≤ Civil.monthLength (Civil.monthIndex n + j)

theorem Long.mono {n : ℤ} {j k : ℕ} (h : Long n k) (hjk : j ≤ k) : Long n j :=
  fun i hi hij => h i hi (hij.trans hjk)

/-- Where every month is long enough, adding months keeps the day of the month. -/
theorem Long.iterate {n : ℤ} {k : ℕ} (h : Long n k) :
    monthStep^[k] n = dayIn (Civil.monthIndex n + k) (Civil.dayOf n)
      ∧ Civil.monthIndex (monthStep^[k] n) = Civil.monthIndex n + k
      ∧ Civil.dayOf (monthStep^[k] n) = Civil.dayOf n := by
  have hpos := (Civil.dayOf_bounds n).1
  induction k with
  | zero => simp [dayIn_self]
  | succ k ih =>
      obtain ⟨-, hindex, hday⟩ := ih (h.mono (Nat.le_succ k))
      have hlen := h (k + 1) (by omega) (le_refl _)
      push_cast at hlen ⊢
      rw [← add_assoc] at hlen ⊢
      rw [Function.iterate_succ_apply', monthStep_eq, hindex, hday]
      exact ⟨rfl, Civil.dayOf_monthStart hpos hlen⟩

/-- Adding months keeps the day until a month is too short for it, and leaves it
in the first three days for good. -/
theorem orbit_cases (n : ℤ) (k : ℕ) :
    Long n k ∨ 28 < Civil.dayOf n ∧ Civil.dayOf (monthStep^[k] n) ≤ 3 := by
  induction k with
  | zero => exact .inl fun j hj hj' => by omega
  | succ k ih =>
      rw [Function.iterate_succ_apply', monthStep_eq]
      have hbounds := Civil.dayOf_bounds n
      have hlen := Civil.monthLength_bounds (Civil.monthIndex n)
      rcases ih with hlong | ⟨hbig, hsmall⟩
      · obtain ⟨-, hindex, hday⟩ := hlong.iterate
        rw [hindex, hday]
        have hnext := Civil.monthLength_bounds (Civil.monthIndex n + k + 1)
        by_cases hfits : Civil.dayOf n ≤ Civil.monthLength (Civil.monthIndex n + k + 1)
        · left
          intro j hj hjk
          rcases Nat.lt_or_ge k j with hlt | hge
          · obtain rfl : j = k + 1 := by omega
            push_cast
            rwa [← add_assoc]
          · exact hlong j hj hge
        · -- the days that are left over start the month after
          right
          have hover : dayIn (Civil.monthIndex n + k + 1) (Civil.dayOf n)
              = dayIn (Civil.monthIndex n + k + 1 + 1)
                (Civil.dayOf n - Civil.monthLength (Civil.monthIndex n + k + 1)) := by
            simp only [dayIn, Civil.monthLength]
            ring
          have hafter := Civil.monthLength_bounds (Civil.monthIndex n + k + 1 + 1)
          rw [hover, dayIn, (Civil.dayOf_monthStart (by omega) (by omega)).2]
          omega
      · right
        have hfirst := (Civil.dayOf_bounds (monthStep^[k] n)).1
        have hnext := Civil.monthLength_bounds (Civil.monthIndex (monthStep^[k] n) + 1)
        rw [dayIn, (Civil.dayOf_monthStart hfirst (by omega)).2]
        exact ⟨hbig, hsmall⟩

/-! ## The next date -/

variable (offset : UtcOffset)

/-- The occurrences of a monthly task, by the number of months added. -/
theorem mem_occurrences_month {task : AppTask} (hr : task.repeats = .monthly) {x : ℤ} :
    x ∈ occurrences offset task ↔ ∃ k : ℕ, 1 ≤ k
      ∧ x = (DateTime.dayStart offset
          (monthStep^[k] (task.date.epochDay (.fixed offset)))).microsecondsSinceEpoch := by
  unfold occurrences
  rw [hr]
  constructor
  · rintro ⟨n, ⟨k, rfl⟩, rfl⟩
    exact ⟨k + 1, by omega, by rw [Function.iterate_succ_apply]⟩
  · rintro ⟨k, hk, rfl⟩
    obtain ⟨j, rfl⟩ := Nat.exists_eq_add_of_le' hk
    exact ⟨_, ⟨j, rfl⟩, by rw [Function.iterate_succ_apply]⟩

/-- The days a monthly task of day `n` should fall on: in a later month, the day
of the month it has, or the last one of a month that is too short. -/
def Due (n m : ℤ) : Prop :=
  Civil.monthIndex n < Civil.monthIndex m
    ∧ Civil.dayOf m = min (Civil.dayOf n) (Civil.monthLength (Civil.monthIndex m))

/-- Some month has the task's day after day `a`, and none before it is too short. -/
def Reaches (n a : ℤ) : Prop :=
  ∃ k : ℕ, 1 ≤ k ∧ Long n k ∧ a < dayIn (Civil.monthIndex n + k) (Civil.dayOf n)

/-- A day that is due in a month that is not too short is an iterate. -/
theorem Due.iterate {n m : ℤ} (h : Due n m) {k : ℕ} (hlong : Long n k)
    (hk : Civil.monthIndex m ≤ Civil.monthIndex n + k) :
    ∃ j : ℕ, 1 ≤ j ∧ m = monthStep^[j] n := by
  obtain ⟨hlater, hday⟩ := h
  obtain ⟨j, hj⟩ : ∃ j : ℕ, Civil.monthIndex m = Civil.monthIndex n + j :=
    ⟨(Civil.monthIndex m - Civil.monthIndex n).toNat, by omega⟩
  refine ⟨j, by omega, ?_⟩
  have hlen := hlong j (by omega) (by omega)
  rw [(hlong.mono (show j ≤ k by omega)).iterate.1, ← dayIn_self m, hj, hday, hj, min_eq_left hlen]

/-- The first iterate after day `a` is the first day due after it exactly when
some iterate reaches past `a` without a month that is too short. -/
theorem isNext_iff_reaches {n a : ℤ} {k : ℕ} (hk : 1 ≤ k)
    (hafter : a < monthStep^[k] n)
    (hfirst : ∀ j : ℕ, 1 ≤ j → a < monthStep^[j] n → monthStep^[k] n ≤ monthStep^[j] n) :
    IsLeast {m | Due n m ∧ a < m} (monthStep^[k] n) ↔ Reaches n a := by
  constructor
  · rintro ⟨⟨⟨-, hday⟩, -⟩, -⟩
    rcases orbit_cases n k with hlong | ⟨hbig, hsmall⟩
    · refine ⟨k, hk, hlong, ?_⟩
      rwa [← hlong.iterate.1]
    · -- once shifted, the day is in the first three, and none due is
      have hlen := (Civil.monthLength_bounds (Civil.monthIndex (monthStep^[k] n))).1
      omega
  · rintro ⟨i, hi, hlong, hreach⟩
    rw [← hlong.iterate.1] at hreach
    have hki : k ≤ i := by
      by_contra hlt
      have hmono := strictMono_nat_of_lt_succ (f := fun j => monthStep^[j] n) fun j => by
        rw [Function.iterate_succ_apply']
        exact lt_monthStep _
      exact absurd (hfirst i hi hreach) (not_le.mpr (hmono (not_le.mp hlt)))
    obtain ⟨-, hindex, hday⟩ := (hlong.mono hki).iterate
    have hlen := hlong k hk hki
    refine ⟨⟨⟨by omega, by rw [hindex, hday, min_eq_left hlen]⟩, hafter⟩, ?_⟩
    rintro m ⟨hdue, hm⟩
    by_cases hfar : Civil.monthIndex m ≤ Civil.monthIndex n + i
    · obtain ⟨j, hj, rfl⟩ := hdue.iterate hlong hfar
      exact hfirst j hj hm
    · -- a day of a later month is later than the one that reaches past `a`
      have hle := hfirst i hi hreach
      rw [hlong.iterate.1, dayIn] at hle
      have hstart := Civil.monthStart_mono (show Civil.monthIndex n + i + 1 ≤ Civil.monthIndex m
        by omega)
      have hm1 := (Civil.dayOf_bounds m).1
      have hmid := Civil.monthStart_add_dayOf m
      have hfits := hlong i hi (le_refl _)
      unfold Civil.monthLength at hfits
      omega

/-- **The monthly rule**: the next date is the earliest day due after the day of
`nowDate` exactly when the task's day of the month is after it in some later
month, and no month from the task's to that one is too short for it. -/
theorem monthly_iff (now : DateTime) {task : AppTask} (h : task.WellFormed)
    (hdate : task.date.isUtc = false) (hr : task.repeats = .monthly) :
    (∃ t, findNextTime (.fixed offset) (.read (.fixed offset) now) task = .ok t
      ∧ IsLeast {m | Due (task.date.epochDay (.fixed offset)) m
          ∧ now.epochDay (.fixed offset) < m} (t.epochDay (.fixed offset)))
      ↔ Reaches (task.date.epochDay (.fixed offset)) (now.epochDay (.fixed offset)) := by
  obtain ⟨x, hx, hnext⟩ := findNextTime_isNext offset now h hdate
  obtain ⟨k, hk, rfl⟩ := (mem_occurrences_month offset hr).mp hnext.mem
  have hday : (placed offset task (DateTime.dayStart offset
      (monthStep^[k] (task.date.epochDay (.fixed offset)))).microsecondsSinceEpoch).epochDay
        (.fixed offset) = monthStep^[k] (task.date.epochDay (.fixed offset)) := by
    rw [epochDay_placed]
    exact DateTime.epochDay_dayStart offset _
  rw [← isNext_iff_reaches hk ((dayStart_lt_dayStart offset).mp hnext.lt) ?_]
  · constructor
    · rintro ⟨t, ht, hleast⟩
      rw [hx, Except.ok.injEq] at ht
      rwa [← ht, hday] at hleast
    · intro hleast
      exact ⟨_, hx, by rwa [hday]⟩
  · intro j hj hlt
    have hle := hnext.le ((mem_occurrences_month offset hr).mpr ⟨j, hj, rfl⟩)
      ((dayStart_lt_dayStart offset).mpr hlt)
    exact (dayStart_le_dayStart offset).mp hle

/-- A monthly task of 31 January 2022, completed at noon of that day, skips
February: it is next on 3 March, and not on 28 February. -/
theorem not_monthly :
    findNextTime utc (.read utc (.ofMillis 1643630400000)) (.fromDS "doc" (newTask utc "uid" "uuid"
        (.untimed 1643587200000 .monthly))) = .ok (.ofMillis 1646265600000)
      ∧ ¬ ∃ t, findNextTime utc (.read utc (.ofMillis 1643630400000)) (.fromDS "doc"
          (newTask utc "uid" "uuid" (.untimed 1643587200000 .monthly))) = .ok t
        ∧ IsLeast {m | Due ((DateTime.ofMillis 1643587200000).epochDay utc) m
          ∧ (DateTime.ofMillis 1643630400000).epochDay utc < m} (t.epochDay utc) := by
  have hresult : findNextTime utc (.read utc (.ofMillis 1643630400000)) (.fromDS "doc"
      (newTask utc "uid" "uuid" (.untimed 1643587200000 .monthly)))
      = .ok (.ofMillis 1646265600000) := rfl
  refine ⟨hresult, ?_⟩
  rintro ⟨t, ht, -, hleast⟩
  rw [hresult, Except.ok.injEq] at ht
  have hdue : Due ((DateTime.ofMillis 1643587200000).epochDay utc) 19051 := by
    unfold Due
    decide
  have hle := hleast ⟨hdue, by decide⟩
  rw [← ht] at hle
  exact absurd hle (by decide)

/-- A monthly task of 1 June, completed on that day. -/
theorem monthly_iff_swim :
    (∃ t, findNextTime (.fixed .utc) (.read (.fixed .utc) (noonOfJune 1).now)
        (.fromDS "doc" (swim .monthly)) = .ok t
      ∧ IsLeast {m | Due ((AppTask.fromDS "doc" (swim .monthly)).date.epochDay (.fixed .utc)) m
          ∧ (noonOfJune 1).now.epochDay (.fixed .utc) < m} (t.epochDay (.fixed .utc)))
      ↔ Reaches ((AppTask.fromDS "doc" (swim .monthly)).date.epochDay (.fixed .utc))
          ((noonOfJune 1).now.epochDay (.fixed .utc)) :=
  monthly_iff .utc (noonOfJune 1).now ((swim_wellFormed .monthly).read "doc") rfl rfl

/-! ## The reward -/

/-- How many months later `u` is than `t`. -/
def monthsBetween (z : Zone) (t u : DateTime) : ℤ :=
  Civil.monthIndex (u.epochDay z) - Civil.monthIndex (t.epochDay z)

/-- Two instants are in one month of one year when no months lie between them. -/
theorem monthsBetween_eq_zero_iff (z : Zone) (t u : DateTime) :
    monthsBetween z t u = 0 ↔ (t.year z, t.month z) = (u.year z, u.month z) := by
  have ht := Civil.monthOf_bounds (t.epochDay z)
  have hu := Civil.monthOf_bounds (u.epochDay z)
  rw [Prod.mk.injEq]
  simp only [monthsBetween, Civil.monthIndex, DateTime.year, DateTime.month]
  omega

theorem giveMoney_month (z : Zone) (now : DateTime) {task : AppTask}
    (hr : task.repeats = .monthly) :
    giveMoney z (.read z now) task = true
      ↔ task.prevCompletionTime.month z ≠ now.month z := by
  unfold giveMoney
  rw [hr]
  exact decide_eq_true_iff

/-- What `giveMoney` asks of a monthly task: that no whole number of years, none
included, has passed. -/
theorem giveMoney_monthly (z : Zone) (now : DateTime) {task : AppTask}
    (hr : task.repeats = .monthly) :
    giveMoney z (.read z now) task = true
      ↔ ¬ 12 ∣ monthsBetween z task.prevCompletionTime now := by
  have hprev := Civil.monthOf_bounds (task.prevCompletionTime.epochDay z)
  have hnow := Civil.monthOf_bounds (now.epochDay z)
  rw [giveMoney_month z now hr]
  simp only [monthsBetween, Civil.monthIndex, DateTime.month]
  omega

/-- The date a new task carries for a completion it has not had. -/
theorem prevCompletionTime_newTask (z : Zone) (id uid uuid : String) (data : FormData) :
    (AppTask.fromDS id (newTask z uid uuid data)).prevCompletionTime = .ofDate z 1970 1 1 := by
  obtain ⟨s, hs, -⟩ := z.resolves (days (Civil.dayNumber 1970 1 1))
  -- the instant is whole seconds, so nothing is cut off
  have hmicros : (DateTime.ofDate z 1970 1 1).microsecondsSinceEpoch
      = days (Civil.dayNumber 1970 1 1) - s * microsecondsPerSecond := by
    rw [← hs]
    simp only [DateTime.ofDate, DateTime.ofFields, zero_mul, add_zero]
  obtain ⟨k, hk⟩ : (1000 : ℤ) ∣ (DateTime.ofDate z 1970 1 1).microsecondsSinceEpoch := by
    rw [hmicros]
    simp only [days, microsecondsPerDay, microsecondsPerSecond]
    omega
  have hcut : (DateTime.ofDate z 1970 1 1).millisecondsSinceEpoch * 1000
      = (DateTime.ofDate z 1970 1 1).microsecondsSinceEpoch := by
    unfold DateTime.millisecondsSinceEpoch microsecondsPerMillisecond
    rw [hk, Int.mul_tdiv_cancel_left k (by norm_num), mul_comm]
  rw [AppTask.fromDS_prevCompletionTime, newTask, DateTime.ofMillis, microsecondsPerMillisecond,
    hcut]
  rfl

/-- **The monthly reward**: in any zone, `giveMoney` goes by month and year exactly
when the two instants are not whole years apart, unless in the same month; and a
new task's first completion is paid exactly when it is not in the month that
`DateTime(1970)` shows, which in a zone of constant offset is January. -/
theorem monthlyReward_iff (z : Zone) (now : DateTime) {task : AppTask}
    (hr : task.repeats = .monthly) :
    ((giveMoney z (.read z now) task = true
        ↔ (task.prevCompletionTime.year z, task.prevCompletionTime.month z)
          ≠ (now.year z, now.month z))
      ↔ (12 ∣ monthsBetween z task.prevCompletionTime now →
        monthsBetween z task.prevCompletionTime now = 0))
    ∧ (∀ (id uid uuid : String) (data : FormData), data.repeats = .monthly →
        (giveMoney z (.read z now) (.fromDS id (newTask z uid uuid data)) = true
          ↔ now.month z ≠ (DateTime.ofDate z 1970 1 1).month z))
    ∧ ∀ offset, z = .fixed offset → (DateTime.ofDate z 1970 1 1).month z = 1 := by
  refine ⟨?_, fun id uid uuid data hr => ?_, fun offset hz => ?_⟩
  · rw [giveMoney_monthly z now hr, ne_eq, ← monthsBetween_eq_zero_iff, not_iff_not]
    constructor
    · intro hiff hdvd
      exact hiff.mp hdvd
    · intro himp
      exact ⟨himp, fun hzero => by rw [hzero]; exact dvd_zero 12⟩
  · have hnew : (AppTask.fromDS id (newTask z uid uuid data)).repeats = .monthly := hr
    rw [giveMoney_month z now hnew, prevCompletionTime_newTask]
    exact ne_comm
  · have hstart : Civil.dayNumber 1970 1 1 = 0 := by decide
    rw [hz, DateTime.ofDate_fixed, hstart, DateTime.month, DateTime.epochDay_dayStart]
    decide

/-- A monthly task that was never completed is not paid for at noon on 10 January
2023. -/
theorem not_monthlyReward :
    giveMoney utc (.read utc (.ofMillis 1673352000000)) (.fromDS "doc" (swim .monthly)) = false
      ∧ ¬ (giveMoney utc (.read utc (.ofMillis 1673352000000))
          (.fromDS "doc" (swim .monthly)) = true
        ↔ ((AppTask.fromDS "doc" (swim .monthly)).prevCompletionTime.year utc,
            (AppTask.fromDS "doc" (swim .monthly)).prevCompletionTime.month utc)
          ≠ ((DateTime.ofMillis 1673352000000).year utc,
            (DateTime.ofMillis 1673352000000).month utc)) := by
  have hfalse : giveMoney utc (.read utc (.ofMillis 1673352000000)) (.fromDS "doc" (swim .monthly))
      = false := by rfl
  refine ⟨hfalse, fun hiff => ?_⟩
  have htrue := hiff.mpr (by decide)
  rw [hfalse] at htrue
  exact absurd htrue (by decide)

/-- The same task on 1 June 2022. -/
theorem monthlyReward_iff_swim :
    ((giveMoney utc (.read utc (noonOfJune 1).now) (.fromDS "doc" (swim .monthly)) = true
        ↔ ((AppTask.fromDS "doc" (swim .monthly)).prevCompletionTime.year utc,
            (AppTask.fromDS "doc" (swim .monthly)).prevCompletionTime.month utc)
          ≠ ((noonOfJune 1).now.year utc, (noonOfJune 1).now.month utc))
      ↔ (12 ∣ monthsBetween utc (AppTask.fromDS "doc" (swim .monthly)).prevCompletionTime
            (noonOfJune 1).now →
        monthsBetween utc (AppTask.fromDS "doc" (swim .monthly)).prevCompletionTime
          (noonOfJune 1).now = 0))
    ∧ (giveMoney utc (.read utc (noonOfJune 1).now) (.fromDS "doc" (swim .monthly)) = true
        ↔ (noonOfJune 1).now.month utc ≠ (DateTime.ofDate utc 1970 1 1).month utc)
    ∧ (DateTime.ofDate utc 1970 1 1).month utc = 1 := by
  have hr : (AppTask.fromDS "doc" (swim .monthly)).repeats = .monthly := rfl
  have h := monthlyReward_iff utc (noonOfJune 1).now hr
  exact ⟨h.1, h.2.1 "doc" "uid" "uuid" _ rfl, h.2.2 .utc rfl⟩

end AquaFocus.MonthlyTasks
