/-
`lib/screens/UserPages/Statistics`: the shares of the pie chart, with the
percentages `database_services.dart` computes for the tags.

A percentage is a rational number here. The `double`s of the source are rounded off
on the way, which `NoTasks.lean` follows.
-/
import AquaFocus.AddTask
import AquaFocus.TagList
import Mathlib.Data.Rat.Defs
import Mathlib.Algebra.Order.Field.Basic
import Mathlib.Algebra.BigOperators.Group.List.Basic
import Mathlib.Tactic.FieldSimp
import Mathlib.Tactic.Linarith
import Mathlib.Tactic.Positivity
import Mathlib.Tactic.Ring

set_option autoImplicit false

namespace AquaFocus.Statistics

/-! ## Percentages -/

/-- `tasks.size / totalTasks.size * 100`, and 2 where there are no tasks. -/
def percentage (size total : ℕ) : ℚ := if total = 0 then 2 else (size : ℚ) / total * 100

/-- How many tasks the query `where('tag', isEqualTo: title)` finds. -/
def tagged (title : String) (tasks : List TaskDoc) : ℕ :=
  tasks.countP fun d => decide (d.tag = some title)

/-- How many tasks have no tag, or none of the list. -/
def untagged (tags : List Tags) (tasks : List TaskDoc) : ℕ :=
  tasks.countP fun d => decide (∀ tag ∈ tags, d.tag ≠ some tag.title)

/-- `getPercentageForTag`. -/
def getPercentageForTag (tag : Tags) (tasks : List TaskDoc) : ℚ :=
  percentage (tagged tag.title tasks) tasks.length

/-- `setData`, its loop: a percentage for each tag. -/
def percentages (tags : List Tags) (tasks : List TaskDoc) : List ℚ :=
  tags.map (getPercentageForTag · tasks)

/-- `setData`, its sum: `reduce`, where there is something to reduce. -/
def sum : List ℚ → ℚ
  | [] => 0
  | p :: ps => ps.foldl (· + ·) p

/-- `setData`, what it is left with, before rounding. -/
def remainder (tags : List Tags) (tasks : List TaskDoc) : ℚ := 100 - sum (percentages tags tasks)

/-! ## The shares -/

theorem foldl_add (p : ℚ) (ps : List ℚ) : ps.foldl (· + ·) p = p + ps.sum := by
  induction ps generalizing p with
  | nil => rw [List.foldl_nil, List.sum_nil, add_zero]
  | cons q ps ih => rw [List.foldl_cons, ih, List.sum_cons, add_assoc]

theorem sum_eq (l : List ℚ) : sum l = l.sum := by
  cases l with
  | nil => rfl
  | cons p ps => rw [sum, foldl_add, List.sum_cons]

/-- Listing one more tag takes its tasks out of the untagged ones. -/
theorem tagged_add_untagged {tag : Tags} {tags : List Tags}
    (h : tag.title ∉ tags.map (·.title)) (tasks : List TaskDoc) :
    tagged tag.title tasks + untagged (tag :: tags) tasks = untagged tags tasks := by
  unfold tagged untagged
  induction tasks with
  | nil => rfl
  | cons d tasks ih =>
      rw [List.countP_cons, List.countP_cons, List.countP_cons, ← ih]
      by_cases hd : d.tag = some tag.title
      · -- the title is not listed again
        have hother : ∀ t ∈ tags, d.tag ≠ some t.title := by
          intro t ht heq
          rw [hd, Option.some.injEq] at heq
          exact h (heq ▸ List.mem_map_of_mem ht)
        have hlisted : ¬ ∀ t ∈ tag :: tags, d.tag ≠ some t.title :=
          fun hall => hall tag List.mem_cons_self hd
        rw [decide_eq_true hd, decide_eq_true hother, decide_eq_false hlisted]
        simp only [if_true, Bool.false_eq_true, if_false]
        omega
      · have hsame : (∀ t ∈ tag :: tags, d.tag ≠ some t.title)
            ↔ ∀ t ∈ tags, d.tag ≠ some t.title :=
          ⟨fun hall => (List.forall_mem_cons.mp hall).2,
            fun hall => List.forall_mem_cons.mpr ⟨hd, hall⟩⟩
        rw [decide_eq_false hd, decide_eq_decide.mpr hsame]
        simp only [Bool.false_eq_true, if_false]
        omega

/-- The tags and the rest are all tasks. -/
theorem sum_tagged {tags : List Tags} (h : (tags.map (·.title)).Nodup) (tasks : List TaskDoc) :
    (tags.map fun tag => tagged tag.title tasks).sum + untagged tags tasks = tasks.length := by
  induction tags with
  | nil => simp [untagged]
  | cons tag tags ih =>
      rw [List.map_cons, List.nodup_cons] at h
      have hsplit := tagged_add_untagged h.1 tasks
      have hrest := ih h.2
      rw [List.map_cons, List.sum_cons]
      omega

theorem sum_percentages (tags : List Tags) {tasks : List TaskDoc} (hne : tasks ≠ []) :
    (percentages tags tasks).sum
      = ((tags.map fun tag => tagged tag.title tasks).sum : ℕ) / tasks.length * 100 := by
  have hlen : tasks.length ≠ 0 := by simpa using hne
  unfold percentages
  induction tags with
  | nil => simp
  | cons tag tags ih =>
      rw [List.map_cons, List.sum_cons, ih, getPercentageForTag, percentage, if_neg hlen,
        List.map_cons, List.sum_cons]
      push_cast
      ring

/-- What is left is the share of the untagged tasks. -/
theorem remainder_eq {tags : List Tags} (h : (tags.map (·.title)).Nodup) {tasks : List TaskDoc}
    (hne : tasks ≠ []) :
    remainder tags tasks = 100 * ((untagged tags tasks : ℚ) / tasks.length) := by
  have hlen : (tasks.length : ℚ) ≠ 0 := by simpa using hne
  have hsum : ((tags.map fun tag => tagged tag.title tasks).sum : ℚ) + untagged tags tasks
      = tasks.length := by exact_mod_cast sum_tagged h tasks
  rw [remainder, sum_eq, sum_percentages tags hne]
  field_simp
  linarith

theorem share_bounds {k n : ℕ} (hn : n ≠ 0) (h : k ≤ n) :
    0 ≤ (k : ℚ) / n * 100 ∧ (k : ℚ) / n * 100 ≤ 100 := by
  have hpos : (0 : ℚ) < n := by positivity
  have hle : (k : ℚ) / n ≤ 1 := (div_le_one hpos).mpr (by exact_mod_cast h)
  constructor
  · positivity
  · linarith

/-- **The shares are a partition**: of a list of tasks that is not empty, the
percentages of the tags and what is left sum to 100, none is below 0 or above 100,
and what is left is the share of the tasks with no tag, or none of the list. -/
theorem shares_partition {tags : List Tags} (h : (tags.map (·.title)).Nodup)
    {tasks : List TaskDoc} (hne : tasks ≠ []) :
    (percentages tags tasks).sum + remainder tags tasks = 100
      ∧ (∀ p ∈ percentages tags tasks ++ [remainder tags tasks], 0 ≤ p ∧ p ≤ 100)
      ∧ remainder tags tasks = 100 * ((untagged tags tasks : ℚ) / tasks.length) := by
  have hlen : tasks.length ≠ 0 := by simpa using hne
  have hrest := remainder_eq h hne
  refine ⟨by rw [remainder, sum_eq]; ring, fun p hp => ?_, hrest⟩
  rcases List.mem_append.mp hp with hp | hp
  · obtain ⟨tag, -, rfl⟩ := List.mem_map.mp hp
    rw [getPercentageForTag, percentage, if_neg hlen]
    exact share_bounds hlen List.countP_le_length
  · rw [List.mem_singleton.mp hp, hrest, mul_comm]
    exact share_bounds hlen List.countP_le_length

def sport : Tags := ⟨"sport", "red"⟩

/-- Two tasks, one of them with the tag. -/
def twoTasks : List TaskDoc := [swim .daily, { swim .daily with tag := some "sport" }]

theorem shares_partition_two :
    (percentages [sport] twoTasks).sum + remainder [sport] twoTasks = 100
      ∧ (∀ p ∈ percentages [sport] twoTasks ++ [remainder [sport] twoTasks], 0 ≤ p ∧ p ≤ 100)
      ∧ remainder [sport] twoTasks
        = 100 * ((untagged [sport] twoTasks : ℚ) / twoTasks.length) :=
  shares_partition (by decide) (List.cons_ne_nil _ _)

end AquaFocus.Statistics
