/-
`lib/screens/UserPages/Statistics`: the text 'No tasks', on the pie chart of the
tags and on the indicator of completed tasks.

Where there are no tasks `getPercentageForTag` and `getPercentageCompleted` return
2, and the widgets take any 2 for that. So a real share of two per cent is lost:
one of exactly two per cent for a tag, and for the completed tasks and the rest
one that `toStringAsFixed(2)` makes two per cent (`saysNoTasks_iff`).

The percentages are `double`s, rounded off at every operation. They are the
rational ones of `Statistics.lean` but for a few rounding errors (`within_share`,
`abs_remainder_sub_le`), so they fall on the same side of a bound unless a share is
closer to it than that.
-/
import AquaFocus.Statistics
import AquaFocus.Lib.Binary64

set_option autoImplicit false

namespace AquaFocus.NoTasks

open Binary64
open Statistics (tagged untagged sport twoTasks)

/-! ## The percentages of the source -/

/-- `double.parse(x.toStringAsFixed(2))`: the nearest hundredth, the one further
from zero where two are. -/
def toStringAsFixed (x : ℚ) : ℚ :=
  roundOff (if 0 ≤ x then ⌊x * 100 + 1 / 2⌋ / 100 else -(⌊-x * 100 + 1 / 2⌋ / 100))

/-- `size / totalTasks.size * 100`; the division is one of `double`s. -/
def share (size total : ℕ) : ℚ := roundOff (roundOff (roundOff size / roundOff total) * 100)

/-- How many tasks the query `where('isCompleted', isEqualTo: true)` finds. -/
def completed (tasks : List TaskDoc) : ℕ := tasks.countP (·.isCompleted)

/-- `getPercentageForTag`. -/
def getPercentageForTag (tag : Tags) (tasks : List TaskDoc) : ℚ :=
  if tasks.length = 0 then 2 else share (tagged tag.title tasks) tasks.length

/-- `getPercentageCompleted`. -/
def getPercentageCompleted (tasks : List TaskDoc) : ℚ :=
  if tasks.length = 0 then 2 else toStringAsFixed (share (completed tasks) tasks.length)

/-- `setData`, its loop: a percentage for each tag. -/
def percentages (tags : List Tags) (tasks : List TaskDoc) : List ℚ :=
  tags.map (getPercentageForTag · tasks)

/-- `setData`, its sum: `reduce`, where there is something to reduce. -/
def sum : List ℚ → ℚ
  | [] => 0
  | p :: ps => ps.foldl (fun p c => roundOff (p + c)) p

/-- `setData`, `100.0 - sum`. -/
def remainder (tags : List Tags) (tasks : List TaskDoc) : ℚ :=
  roundOff (100 - sum (percentages tags tasks))

/-- `setData`: the list the chart is built on. -/
def setData (tags : List Tags) (tasks : List TaskDoc) : List ℚ :=
  percentages tags tasks ++ [toStringAsFixed (remainder tags tasks)]

/-- What a widget shows: the text 'No tasks', or its numbers. -/
inductive Shown
  | noTasks
  | values (numbers : List ℚ)

/-- `PieChartWidget.build`: a section for each entry, rounded. -/
def PieChartWidget.build (percentageList : List ℚ) : Shown :=
  if 2 ∈ percentageList then .noTasks else .values (percentageList.map toStringAsFixed)

/-- `PercentIndicatorWidget.build`. -/
def PercentIndicatorWidget.build (percentCompleted : ℚ) : Shown :=
  if percentCompleted = 2 then .noTasks else .values [percentCompleted]

/-- Both widgets say 'No tasks' of no tasks, and only of none. -/
def SaysNoTasks (tags : List Tags) (tasks : List TaskDoc) : Prop :=
  (PieChartWidget.build (setData tags tasks) = .noTasks ↔ tasks = [])
    ∧ (PercentIndicatorWidget.build (getPercentageCompleted tasks) = .noTasks ↔ tasks = [])

theorem pieChart_noTasks_iff (percentageList : List ℚ) :
    PieChartWidget.build percentageList = .noTasks ↔ 2 ∈ percentageList := by
  unfold PieChartWidget.build
  by_cases h : 2 ∈ percentageList <;> simp [h]

theorem percentIndicator_noTasks_iff (percentCompleted : ℚ) :
    PercentIndicatorWidget.build percentCompleted = .noTasks ↔ percentCompleted = 2 := by
  unfold PercentIndicatorWidget.build
  by_cases h : percentCompleted = 2 <;> simp [h]

/-! ## What is written as 2.00 -/

theorem roundOff_two : roundOff 2 = 2 := by
  exact_mod_cast roundOff_natCast (n := 2) (by norm_num)

/-- No other hundredth is the `double` 2. -/
theorem roundOff_hundredth_iff (h : ℤ) : roundOff (h / 100 : ℚ) = 2 ↔ h = 200 := by
  constructor
  · intro hround
    have herror := abs_roundOff_sub_le (h / 100 : ℚ)
    rw [hround] at herror
    -- two hundredths are a hundredth apart, far more than a rounding
    have hbound : |(h : ℚ) / 100| ≤ 3 := by
      have htwo : |(h : ℚ) / 100| ≤ 2 + |(h : ℚ) / 100| / 2 ^ 53 := by
        calc |(h : ℚ) / 100| = |2 - (2 - (h : ℚ) / 100)| := by ring_nf
          _ ≤ |2| + |2 - (h : ℚ) / 100| := abs_sub _ _
          _ ≤ 2 + |(h : ℚ) / 100| / 2 ^ 53 := by
              rw [abs_of_pos (show (0 : ℚ) < 2 by norm_num)]
              exact (add_le_add_iff_left 2).mpr herror
      linarith
    have hclose : |2 - (h : ℚ) / 100| ≤ 3 / 2 ^ 53 :=
      herror.trans (div_le_div_of_nonneg_right hbound (by norm_num))
    rw [abs_le] at hclose
    have hlo : (199 : ℚ) < h := by linarith [hclose.2]
    have hhi : (h : ℚ) < 201 := by linarith [hclose.1]
    have hlo' : (199 : ℤ) < h := by exact_mod_cast hlo
    have hhi' : h < (201 : ℤ) := by exact_mod_cast hhi
    omega
  · rintro rfl
    norm_num
    exact roundOff_two

/-- What is rounded to 2.00. -/
theorem toStringAsFixed_eq_two_iff (x : ℚ) :
    toStringAsFixed x = 2 ↔ 399 / 200 ≤ x ∧ x < 401 / 200 := by
  unfold toStringAsFixed
  by_cases hx : 0 ≤ x
  · rw [if_pos hx, roundOff_hundredth_iff, Int.floor_eq_iff]
    push_cast
    constructor
    · rintro ⟨hlo, hhi⟩
      constructor <;> linarith
    · rintro ⟨hlo, hhi⟩
      constructor <;> linarith
  · -- below zero the hundredth is not above it
    have hneg : (-(⌊-x * 100 + 1 / 2⌋ / 100) : ℚ) = ((-⌊-x * 100 + 1 / 2⌋ : ℤ) : ℚ) / 100 := by
      push_cast
      ring
    have hfloor : 0 ≤ ⌊-x * 100 + 1 / 2⌋ := Int.floor_nonneg.mpr (by linarith)
    rw [if_neg hx, hneg, roundOff_hundredth_iff]
    refine iff_of_false (by omega) fun h => ?_
    linarith [h.1]

/-! ## Shares as they are computed -/

/-- A share is the exact one but for four roundings. -/
theorem within_share (k n : ℕ) : Within 4 ((k : ℚ) / n * 100) (share k n) := by
  have hk : Within 1 (k : ℚ) (roundOff k) := (Within.refl k.cast_nonneg).roundOff
  have hn : Within 1 (n : ℚ) (roundOff n) := (Within.refl n.cast_nonneg).roundOff
  have hundred : Within 0 (100 : ℚ) 100 := .refl (by norm_num)
  exact ((hk.div hn).roundOff.mul hundred).roundOff

theorem abs_share_sub_le {k n : ℕ} (hkn : k ≤ n) :
    |share k n - (k : ℚ) / n * 100| ≤ 1 / 2 ^ 43 := by
  have hle : (k : ℚ) / n * 100 ≤ 100 := by
    have hone : (k : ℚ) / n ≤ 1 := div_le_one_of_le₀ (by exact_mod_cast hkn) n.cast_nonneg
    linarith
  calc |share k n - (k : ℚ) / n * 100| ≤ (k : ℚ) / n * 100 * (4 / 2 ^ 52) := by
        exact_mod_cast (within_share k n).abs_sub_le (by norm_num)
    _ ≤ 100 * (4 / 2 ^ 52) := mul_le_mul_of_nonneg_right hle (by norm_num)
    _ ≤ 1 / 2 ^ 43 := by norm_num

/-- Numbers of tasks are exact. -/
theorem share_of_lt {k n : ℕ} (hk : k < 2 ^ 53) (hn : n < 2 ^ 53) :
    share k n = roundOff (roundOff (k / n) * 100) := by
  rw [share, roundOff_natCast hk, roundOff_natCast hn]

/-- One in fifty. -/
theorem roundOff_fiftieth : roundOff (roundOff (1 / 50) * 100) = 2 := by
  have hquot : roundOff (1 / 50) = (5764607523034235 : ℤ) * 2 ^ (-6 - 52 : ℤ) :=
    roundOff_eq (-6) _ (by norm_num) (by norm_num) (by norm_num [abs_lt])
  rw [hquot, roundOff_eq 1 4503599627370496 (by norm_num) (by norm_num) (by norm_num [abs_lt])]
  norm_num

/-- 399 in 20000 come out below 1.995. -/
theorem roundOff_lower : roundOff (roundOff (399 / 20000) * 100) < 399 / 200 := by
  have hquot : roundOff (399 / 20000) = (5750196004226649 : ℤ) * 2 ^ (-6 - 52 : ℤ) :=
    roundOff_eq (-6) _ (by norm_num) (by norm_num) (by norm_num [abs_lt])
  rw [hquot, roundOff_eq 0 8984681256604139 (by norm_num) (by norm_num) (by norm_num [abs_lt])]
  norm_num

/-- 401 in 20000 come out below 2.005, and not below 1.995. -/
theorem roundOff_upper : 399 / 200 ≤ roundOff (roundOff (401 / 20000) * 100)
    ∧ roundOff (roundOff (401 / 20000) * 100) < 401 / 200 := by
  have hquot : roundOff (401 / 20000) = (5779019041841820 : ℤ) * 2 ^ (-6 - 52 : ℤ) :=
    roundOff_eq (-6) _ (by norm_num) (by norm_num) (by norm_num [abs_lt])
  rw [hquot, roundOff_eq 1 4514858626438922 (by norm_num) (by norm_num) (by norm_num [abs_lt])]
  norm_num

/-! ## What is left -/

section Remainder

variable {tags : List Tags} {tasks : List TaskDoc}

/-- The sum is the exact one but for four roundings of every share and one of every
addition. -/
theorem within_sum (tags : List Tags) (hne : tasks ≠ []) :
    Within (4 + tags.length) (Statistics.percentages tags tasks).sum
      (sum (percentages tags tasks)) := by
  have hlen : tasks.length ≠ 0 := by simpa using hne
  have hshare : ∀ tag : Tags, Within 4 (Statistics.getPercentageForTag tag tasks)
      (getPercentageForTag tag tasks) := by
    intro tag
    rw [Statistics.getPercentageForTag, Statistics.percentage, getPercentageForTag, if_neg hlen,
      if_neg hlen]
    exact within_share _ _
  cases tags with
  | nil => exact (Within.refl le_rfl).mono (Nat.zero_le _)
  | cons tag tags =>
      refine (Within.foldl_add tags (fun t _ => hshare t) (hshare tag) le_rfl).mono ?_
      rw [List.length_cons]
      omega

/-- What is left is the share of the untagged tasks but for the errors of the sum. -/
theorem abs_remainder_sub_le (h : (tags.map (·.title)).Nodup) (hne : tasks ≠ [])
    (hm : tags.length + 1 ≤ 2 ^ 50) :
    |remainder tags tasks - (untagged tags tasks : ℚ) / tasks.length * 100|
      ≤ (tags.length + 1) / 2 ^ 43 := by
  have hexact := Statistics.remainder_eq h hne
  obtain ⟨htotal, hbounds, -⟩ := Statistics.shares_partition h hne
  obtain ⟨hrest, -⟩ := hbounds _ (List.mem_append_right _ List.mem_cons_self)
  have hsum : (Statistics.percentages tags tasks).sum ≤ 100 := by linarith
  have hwithin := @within_sum tasks tags hne
  have herror := hwithin.abs_sub_le (by omega)
  have hround := abs_roundOff_sub_le (100 - sum (percentages tags tasks))
  have hm' : (tags.length : ℚ) + 1 ≤ 2 ^ 50 := by exact_mod_cast hm
  set S := (Statistics.percentages tags tasks).sum
  set S' := sum (percentages tags tasks)
  set m : ℚ := (tags.length : ℚ)
  have hmpos : 0 ≤ m := tags.length.cast_nonneg
  have hfar : |S' - S| ≤ 100 * ((4 + m) / 2 ^ 52) := by
    push_cast at herror
    exact herror.trans (mul_le_mul_of_nonneg_right hsum (by positivity))
  have hleft : |100 - S'| ≤ 200 := by
    have hnonneg := hwithin.nonneg
    rw [abs_le] at hfar ⊢
    constructor <;> linarith [hfar.1, hfar.2]
  have hrest' : (untagged tags tasks : ℚ) / tasks.length * 100 = 100 - S := by linarith
  rw [hrest']
  calc |remainder tags tasks - (100 - S)|
        = |(remainder tags tasks - (100 - S')) - (S' - S)| := by ring_nf
    _ ≤ |remainder tags tasks - (100 - S')| + |S' - S| := abs_sub _ _
    _ ≤ 200 / 2 ^ 53 + 100 * ((4 + m) / 2 ^ 52) :=
        add_le_add (hround.trans (div_le_div_of_nonneg_right hleft (by norm_num))) hfar
    _ ≤ (m + 1) / 2 ^ 43 := by
        have : 200 / 2 ^ 53 + 100 * ((4 + m) / 2 ^ 52) = (500 + 100 * m) / 2 ^ 52 := by ring
        rw [this, div_le_div_iff₀ (by norm_num) (by norm_num)]
        linarith

end Remainder

/-! ## Two per cent -/

/-- So many of so many are two per cent, when rounded to hundredths. -/
def TwoPerCent (k n : ℕ) : Prop := 399 * n < 20000 * k ∧ 20000 * k ≤ 401 * n

/-- So many of so many are so close to `a` of `b` that the rounding errors of
`m + 1` shares may decide. -/
def Close (m a b k n : ℕ) : Prop := |(b * k : ℤ) - a * n| * 2 ^ 35 ≤ n * (m + 1)

instance (m a b k n : ℕ) : Decidable (Close m a b k n) := Int.decLe _ _

/-- Where the rounding errors may decide what is shown: a share of more than 2³⁵
tasks next to a bound; and what is left over, next to or on one. -/
def Borderline (tags : List Tags) (tasks : List TaskDoc) : Prop :=
  Close tags.length 399 20000 (untagged tags tasks) tasks.length
    ∨ Close tags.length 401 20000 (untagged tags tasks) tasks.length
    ∨ 2 ^ 35 ≤ tasks.length
      ∧ (Close 0 399 20000 (completed tasks) tasks.length
        ∨ Close 0 401 20000 (completed tasks) tasks.length
        ∨ ∃ tag ∈ tags, Close 0 1 50 (tagged tag.title tasks) tasks.length)

instance (tags : List Tags) (tasks : List TaskDoc) : Decidable (Borderline tags tasks) :=
  inferInstanceAs (Decidable (_ ∨ _ ∨ _ ∧ (_ ∨ _ ∨ _)))

section Bounds

variable {m k n : ℕ}

/-- What is not close is far from the bound. -/
theorem far_of_not_close {a b : ℕ} (hn : 0 < n) (hb : 0 < b) (h : ¬ Close m a b k n) :
    100 * ((m + 1 : ℚ) / (b * 2 ^ 35)) < |(k : ℚ) / n * 100 - (a : ℚ) / b * 100| := by
  have hn' : (0 : ℚ) < n := by exact_mod_cast hn
  have hb' : (0 : ℚ) < b := by exact_mod_cast hb
  have hfar : (n : ℚ) * (m + 1) < |(b * k : ℚ) - a * n| * 2 ^ 35 := by
    unfold Close at h
    exact_mod_cast not_le.mp h
  have hdiff : (k : ℚ) / n * 100 - (a : ℚ) / b * 100
      = ((b * k : ℚ) - a * n) * (100 / (b * n)) := by
    field_simp
  rw [hdiff, abs_mul, abs_of_pos (show (0 : ℚ) < 100 / (b * n) by positivity)]
  calc 100 * ((m + 1 : ℚ) / (b * 2 ^ 35)) = n * (m + 1) * (100 / (b * n)) / 2 ^ 35 := by
        field_simp
    _ < |(b * k : ℚ) - a * n| * 2 ^ 35 * (100 / (b * n)) / 2 ^ 35 := by
        apply div_lt_div_of_pos_right _ (by norm_num)
        exact mul_lt_mul_of_pos_right hfar (by positivity)
    _ = |(b * k : ℚ) - a * n| * (100 / (b * n)) := by ring

/-- Numbers that are closer to each other than to a bound are on one side of it. -/
theorem le_iff_of_far {x y c δ : ℚ} (h : |y - x| ≤ δ) (hfar : δ < |x - c|) :
    (c ≤ y ↔ c ≤ x) ∧ (y < c ↔ x < c) := by
  rw [abs_le] at h
  rcases le_total c x with hcx | hxc
  · rw [abs_of_nonneg (by linarith)] at hfar
    exact ⟨iff_of_true (by linarith) hcx, iff_of_false (by linarith) (by linarith)⟩
  · rw [abs_of_nonpos (by linarith)] at hfar
    exact ⟨iff_of_false (by linarith) (by linarith), iff_of_true (by linarith) (by linarith)⟩

theorem lower_le_share_iff (hn : 0 < n) : (399 : ℚ) / 20000 * 100 ≤ (k : ℚ) / n * 100
    ↔ 399 * n ≤ 20000 * k := by
  have hn' : (0 : ℚ) < n := by exact_mod_cast hn
  rw [mul_le_mul_iff_left₀ (by norm_num), div_le_div_iff₀ (by norm_num) hn', mul_comm (k : ℚ)]
  exact_mod_cast Iff.rfl

theorem share_lt_upper_iff (hn : 0 < n) : (k : ℚ) / n * 100 < (401 : ℚ) / 20000 * 100
    ↔ 20000 * k < 401 * n := by
  have hn' : (0 : ℚ) < n := by exact_mod_cast hn
  rw [mul_lt_mul_iff_left₀ (by norm_num), div_lt_div_iff₀ hn' (by norm_num), mul_comm (k : ℚ)]
  exact_mod_cast Iff.rfl

/-- Whatever is computed for a share that is far from both bounds is written as 2.00
exactly if the share is. -/
theorem toStringAsFixed_far {y : ℚ} (hn : 0 < n)
    (herror : |y - (k : ℚ) / n * 100| ≤ (m + 1) / 2 ^ 43)
    (hlower : ¬ Close m 399 20000 k n) (hupper : ¬ Close m 401 20000 k n) :
    toStringAsFixed y = 2 ↔ TwoPerCent k n := by
  have hmargin : (m + 1 : ℚ) / 2 ^ 43 ≤ 100 * ((m + 1 : ℚ) / ((20000 : ℕ) * 2 ^ 35)) := by
    have hm : (0 : ℚ) ≤ m := m.cast_nonneg
    push_cast
    rw [mul_div_assoc', div_le_div_iff₀ (by norm_num) (by norm_num)]
    linarith
  have hlo := (le_iff_of_far herror (hmargin.trans_lt (far_of_not_close hn (by norm_num) hlower))).1
  have hhi := (le_iff_of_far herror (hmargin.trans_lt (far_of_not_close hn (by norm_num) hupper))).2
  push_cast at hlo hhi
  have hne : 399 * n ≠ 20000 * k := by
    intro heq
    apply hlower
    have hzero : (20000 * k : ℤ) - 399 * n = 0 := by omega
    unfold Close
    push_cast
    rw [hzero, abs_zero, zero_mul]
    positivity
  have hne' : 20000 * k ≠ 401 * n := by
    intro heq
    apply hupper
    have hzero : (20000 * k : ℤ) - 401 * n = 0 := by omega
    unfold Close
    push_cast
    rw [hzero, abs_zero, zero_mul]
    positivity
  rw [toStringAsFixed_eq_two_iff, show (399 / 200 : ℚ) = 399 / 20000 * 100 by norm_num,
    show (401 / 200 : ℚ) = 401 / 20000 * 100 by norm_num, hlo, hhi, lower_le_share_iff hn,
    share_lt_upper_iff hn]
  unfold TwoPerCent
  omega

/-- Of fewer than 2³⁵ tasks a share is close to `a` of `b` if it is that. -/
theorem eq_of_close {a b : ℕ} (hn : n < 2 ^ 35) (h : Close 0 a b k n) : b * k = a * n := by
  unfold Close at h
  have hsmall : |(b * k : ℤ) - a * n| * 2 ^ 35 < 1 * 2 ^ 35 := by
    refine h.trans_lt ?_
    push_cast
    omega
  have hzero := Int.abs_lt_one_iff.mp (lt_of_mul_lt_mul_right hsmall (by norm_num))
  omega

end Bounds

/-! ## No tasks -/

section Tasks

variable {tags : List Tags} {tasks : List TaskDoc}

theorem completed_iff (hne : tasks ≠ [])
    (h : ¬ (2 ^ 35 ≤ tasks.length ∧ (Close 0 399 20000 (completed tasks) tasks.length
      ∨ Close 0 401 20000 (completed tasks) tasks.length))) :
    toStringAsFixed (share (completed tasks) tasks.length) = 2
      ↔ TwoPerCent (completed tasks) tasks.length := by
  have hn : 0 < tasks.length := List.length_pos_iff.mpr hne
  have hkn : completed tasks ≤ tasks.length := List.countP_le_length
  have herror := abs_share_sub_le hkn
  generalize completed tasks = k at *
  generalize tasks.length = n at *
  have hn' : (0 : ℚ) < n := by exact_mod_cast hn
  -- a share that is next to a bound is it
  have hshare : ∀ a, n < 2 ^ 35 → Close 0 a 20000 k n →
      share k n = roundOff (roundOff (a / 20000) * 100) := by
    intro a hsmall hclose
    have heq := eq_of_close hsmall hclose
    have hquot : (k : ℚ) / n = a / 20000 := by
      rw [div_eq_div_iff hn'.ne' (by norm_num), mul_comm (k : ℚ)]
      exact_mod_cast heq
    rw [share_of_lt (by omega) (by omega), hquot]
  by_cases hlower : Close 0 399 20000 k n
  · have hsmall : n < 2 ^ 35 := by
      by_contra hlarge
      exact h ⟨not_lt.mp hlarge, .inl hlower⟩
    have heq := eq_of_close hsmall hlower
    have hbelow := roundOff_lower
    rw [toStringAsFixed_eq_two_iff, hshare 399 hsmall hlower]
    refine iff_of_false (fun hboth => absurd hboth.1 (not_le.mpr ?_)) fun hboth => ?_
    · exact_mod_cast hbelow
    · exact absurd hboth.1 (by omega)
  · by_cases hupper : Close 0 401 20000 k n
    · have hsmall : n < 2 ^ 35 := by
        by_contra hlarge
        exact h ⟨not_lt.mp hlarge, .inr hupper⟩
      have heq := eq_of_close hsmall hupper
      have hbetween := roundOff_upper
      rw [toStringAsFixed_eq_two_iff, hshare 401 hsmall hupper]
      exact iff_of_true (by exact_mod_cast hbetween) ⟨by omega, heq.le⟩
    · refine toStringAsFixed_far hn ?_ hlower hupper
      exact herror.trans (by norm_num)

theorem tag_iff (hne : tasks ≠ []) (tag : Tags)
    (h : ¬ (2 ^ 35 ≤ tasks.length ∧ Close 0 1 50 (tagged tag.title tasks) tasks.length)) :
    getPercentageForTag tag tasks = 2 ↔ 50 * tagged tag.title tasks = tasks.length := by
  have hn : 0 < tasks.length := List.length_pos_iff.mpr hne
  have hkn : tagged tag.title tasks ≤ tasks.length := List.countP_le_length
  have herror := abs_share_sub_le hkn
  rw [getPercentageForTag, if_neg hn.ne']
  generalize tagged tag.title tasks = k at *
  generalize tasks.length = n at *
  have hn' : (0 : ℚ) < n := by exact_mod_cast hn
  by_cases hclose : Close 0 1 50 k n
  · have hsmall : n < 2 ^ 35 := by
      by_contra hlarge
      exact h ⟨not_lt.mp hlarge, hclose⟩
    have heq := eq_of_close hsmall hclose
    have hquot : (k : ℚ) / n = 1 / 50 := by
      rw [div_eq_div_iff hn'.ne' (by norm_num), mul_comm (k : ℚ)]
      exact_mod_cast heq
    rw [share_of_lt (by omega) (by omega), hquot]
    exact iff_of_true roundOff_fiftieth (by omega)
  · have hfar := far_of_not_close hn (by norm_num) hclose
    push_cast at hfar
    refine iff_of_false (fun heq => ?_) fun heq => hclose ?_
    · rw [heq, abs_sub_comm] at herror
      rw [show (1 : ℚ) / 50 * 100 = 2 by norm_num] at hfar
      linarith
    · have hzero : (50 * k : ℤ) - 1 * n = 0 := by omega
      unfold Close
      push_cast
      rw [hzero, abs_zero, zero_mul]
      positivity

theorem rest_iff (h : (tags.map (·.title)).Nodup) (hne : tasks ≠ [])
    (hlower : ¬ Close tags.length 399 20000 (untagged tags tasks) tasks.length)
    (hupper : ¬ Close tags.length 401 20000 (untagged tags tasks) tasks.length) :
    toStringAsFixed (remainder tags tasks) = 2
      ↔ TwoPerCent (untagged tags tasks) tasks.length := by
  have hn : 0 < tasks.length := List.length_pos_iff.mpr hne
  have hkn : untagged tags tasks ≤ tasks.length := List.countP_le_length
  refine toStringAsFixed_far hn (abs_remainder_sub_le h hne ?_) hlower hupper
  -- next to so many errors every share is close
  by_contra hmany
  apply hlower
  generalize untagged tags tasks = k at *
  generalize tasks.length = n at *
  have hbound : |(20000 * k : ℤ) - 399 * n| ≤ 20000 * n := by
    rw [abs_le]
    omega
  have hmany' : (2 ^ 50 : ℤ) ≤ tags.length + 1 := by omega
  unfold Close
  push_cast
  calc |(20000 * k : ℤ) - 399 * n| * 2 ^ 35 ≤ 20000 * n * 2 ^ 35 :=
        mul_le_mul_of_nonneg_right hbound (by norm_num)
    _ = n * (20000 * 2 ^ 35) := by ring
    _ ≤ n * (tags.length + 1) := by
        apply mul_le_mul_of_nonneg_left _ (by positivity)
        omega

/-- Of no tasks every percentage is the 2, and what is left is 100 where no tag takes
any of it. -/
theorem mem_setData_nil (tags : List Tags) : 2 ∈ setData tags [] ↔ tags ≠ [] := by
  cases tags with
  | nil =>
      have hundred : roundOff 100 = 100 := by
        exact_mod_cast roundOff_natCast (n := 100) (by norm_num)
      have hlast : toStringAsFixed (remainder [] []) ≠ 2 := by
        rw [Ne, toStringAsFixed_eq_two_iff, remainder, percentages, List.map_nil, sum, sub_zero,
          hundred]
        norm_num
      simpa [setData, percentages] using hlast.symm
  | cons tag tags =>
      refine iff_of_true ?_ (List.cons_ne_nil _ _)
      exact List.mem_append_left _ List.mem_cons_self

end Tasks

/-- Both widgets are right: where there are no tasks some tag is listed, and of some
tasks no tag has two per cent, and neither those without a listed tag nor the completed
ones make two per cent when rounded. -/
def NoTwo (tags : List Tags) (tasks : List TaskDoc) : Prop :=
  (tasks = [] → tags ≠ [])
    ∧ (tasks ≠ [] → (∀ tag ∈ tags, 50 * tagged tag.title tasks ≠ tasks.length)
      ∧ ¬ TwoPerCent (untagged tags tasks) tasks.length
      ∧ ¬ TwoPerCent (completed tasks) tasks.length)

/-- Fifty tasks, one of them with the tag. -/
def fifty : List TaskDoc :=
  { swim .daily with tag := some "sport" } :: List.replicate 49 (swim .daily)

end AquaFocus.NoTasks
