/-
`lib/screens/Tasks/task_utils.dart`: `taskCompare`, the order of the task lists.

The comparator builds a midnight from each date and a clock time of 1 January
1970 from each time, and compares instants. `rank` collects these into one key,
and `taskCompare` is the comparator of that key which answers -1 where two tasks
without a time have the same one (`taskCompare_eq`). `key` is what the list is
meant to be ordered by, calendar days and clock times; in a zone that keeps these
in order the two agree.
-/
import AquaFocus.AddTask
import AquaFocus.Lib.Comparator
import Mathlib

set_option autoImplicit false

open Dart Comparator

namespace AquaFocus.TaskOrder

/-! ## The comparator -/

/-- `taskCompare`. -/
def taskCompare (z : Zone) (a b : AppTask) : ℤ :=
  let aDate := a.date.midnight z
  let bDate := b.date.midnight z
  if a.isCompleted && !b.isCompleted then 1
  else if !a.isCompleted && b.isCompleted then -1
  else if aDate.compareTo bDate = 0 then
    match a.time, b.time with
    | some aTime, some bTime =>
        (DateTime.ofFields z 1970 1 1 (aTime.hour z) (aTime.minute z)).compareTo
          (.ofFields z 1970 1 1 (bTime.hour z) (bTime.minute z))
    | none, some _ => 1
    | _, none => -1
  else aDate.compareTo bDate

/-! ## Keys -/

section Keys

variable {δ τ δ' τ' : Type*}

/-- What `clock` makes of a time, a missing one being last. -/
def timeKey (clock : DateTime → τ) : Option DateTime → WithTop τ
  | none => ⊤
  | some time => (clock time : τ)

/-- Completion, then what `day` makes of the date, then the time. -/
def orderKey (day : DateTime → δ) (clock : DateTime → τ) (task : AppTask) :
    Bool ×ₗ δ ×ₗ WithTop τ :=
  toLex (task.isCompleted, toLex (day task.date, timeKey clock task.time))

/-- What a task list is ordered by: completion, the calendar day of the date, and
the hour and minute of the time. -/
def key (z : Zone) : AppTask → Bool ×ₗ ℤ ×ₗ WithTop (ℤ ×ₗ ℤ) :=
  orderKey (·.epochDay z) fun time => toLex (time.hour z, time.minute z)

/-- What `taskCompare` compares. -/
def rank (z : Zone) : AppTask → Bool ×ₗ ℤ ×ₗ WithTop ℤ :=
  orderKey (fun date => (date.midnight z).microsecondsSinceEpoch) fun time =>
    (DateTime.ofFields z 1970 1 1 (time.hour z) (time.minute z)).microsecondsSinceEpoch

@[simp] theorem timeKey_none (clock : DateTime → τ) : timeKey clock none = ⊤ := rfl

@[simp] theorem timeKey_some (clock : DateTime → τ) (time : DateTime) :
    timeKey clock (some time) = (clock time : WithTop τ) := rfl

theorem timeKey_eq_top_iff {clock : DateTime → τ} {time : Option DateTime} :
    timeKey clock time = ⊤ ↔ time = none := by
  cases time with
  | none => exact iff_of_true rfl rfl
  | some t => exact iff_of_false (WithTop.coe_ne_top) (by simp)

variable [LinearOrder δ] [LinearOrder τ] [LinearOrder δ'] [LinearOrder τ']

/-- Keys that order days and times alike order tasks alike. -/
theorem orderKey_le_iff {day : DateTime → δ} {clock : DateTime → τ} {day' : DateTime → δ'}
    {clock' : DateTime → τ'} (hday : ∀ t u, day t ≤ day u ↔ day' t ≤ day' u)
    (hclock : ∀ t u, clock t ≤ clock u ↔ clock' t ≤ clock' u) (a b : AppTask) :
    orderKey day clock a ≤ orderKey day clock b
      ↔ orderKey day' clock' a ≤ orderKey day' clock' b := by
  have hlt : ∀ t u, day t < day u ↔ day' t < day' u := fun t u => by
    rw [← not_le, ← not_le, hday]
  have heq : ∀ t u, day t = day u ↔ day' t = day' u := fun t u => by
    rw [le_antisymm_iff, le_antisymm_iff, hday, hday]
  have htime : timeKey clock a.time ≤ timeKey clock b.time
      ↔ timeKey clock' a.time ≤ timeKey clock' b.time := by
    cases a.time with
    | none =>
        simp only [timeKey_none, top_le_iff]
        exact timeKey_eq_top_iff.trans timeKey_eq_top_iff.symm
    | some t =>
        cases b.time with
        | none => simp only [timeKey_none, le_top]
        | some u => simp only [timeKey_some, WithTop.coe_le_coe, hclock]
  simp only [orderKey, Prod.Lex.toLex_le_toLex, hlt, heq, htime]

end Keys

/-! ## What the comparator answers -/

variable {z : Zone}

/-- What `taskCompare` answers where the keys do not decide. -/
def tie (task : AppTask) : ℤ := if task.time.isSome then 0 else -1

theorem compareTo_eq (t u : DateTime) :
    t.compareTo u = byKey DateTime.microsecondsSinceEpoch (fun _ => 0) t u := rfl

/-- Not completed comes before completed. -/
theorem byKey_isCompleted (a b : AppTask) :
    byKey AppTask.isCompleted (fun _ => 0) a b
      = if a.isCompleted && !b.isCompleted then 1
        else if !a.isCompleted && b.isCompleted then -1 else 0 := by
  unfold byKey
  cases a.isCompleted <;> cases b.isCompleted <;> rfl

/-- The times of two tasks, an untimed one being last. -/
theorem byKey_time (clock : DateTime → DateTime) (a b : AppTask) :
    byKey (fun task : AppTask => timeKey (fun t => (clock t).microsecondsSinceEpoch) task.time)
        tie a b
      = match a.time, b.time with
        | some aTime, some bTime => (clock aTime).compareTo (clock bTime)
        | none, some _ => 1
        | _, none => -1 := by
  cases ha : a.time with
  | none =>
      cases hb : b.time with
      | none =>
          rw [byKey_of_eq tie (by rw [ha, hb])]
          simp [tie, ha]
      | some u => exact byKey_of_gt tie (by simp [ha, hb])
  | some t =>
      cases hb : b.time with
      | none => exact byKey_of_lt tie (by simp [ha, hb])
      | some u => simp [byKey, ha, hb, tie, DateTime.compareTo]

/-- **`taskCompare` compares ranks**, and answers -1 on tasks without a time that
have the same one. -/
theorem taskCompare_eq (z : Zone) (a b : AppTask) :
    taskCompare z a b = byKey (rank z) tie a b := by
  have hrank : byKey (rank z) tie a b
      = thenBy (byKey AppTask.isCompleted (fun _ => 0) a b)
          (thenBy ((a.date.midnight z).compareTo (b.date.midnight z))
            (byKey (fun task : AppTask => timeKey (fun t =>
              (DateTime.ofFields z 1970 1 1 (t.hour z) (t.minute z)).microsecondsSinceEpoch)
                task.time) tie a b)) := by
    rw [compareTo_eq]
    unfold rank orderKey
    rw [byKey_toLex, byKey_toLex]
    rfl
  rw [hrank, byKey_isCompleted, byKey_time]
  unfold taskCompare thenBy
  cases a.isCompleted <;> cases b.isCompleted <;> rfl

/-! ## The laws of a comparator -/

theorem tie_nonpos (task : AppTask) : tie task ≤ 0 := by
  unfold tie
  split <;> decide

theorem taskCompare_ordersBy_rank (z : Zone) : OrdersBy (taskCompare z) (rank z) := by
  intro a b
  rw [taskCompare_eq]
  exact byKey_ordersBy tie_nonpos a b

/-- Two tasks are told apart the same way in both directions, except where
neither has a time and they have the same rank. -/
theorem opposite_taskCompare_iff (z : Zone) (a b : AppTask) :
    Opposite (taskCompare z a b) (taskCompare z b a)
      ↔ (rank z a = rank z b → a.time.isSome) := by
  rw [taskCompare_eq, taskCompare_eq, opposite_byKey_iff]
  refine forall_congr' fun hrank => ?_
  -- tasks of one rank both have a time, or neither has
  have htime : timeKey _ a.time = timeKey _ b.time :=
    congrArg (fun k => (ofLex (ofLex k).2).2) hrank
  have hnone : a.time = none ↔ b.time = none := by
    rw [← timeKey_eq_top_iff, htime, timeKey_eq_top_iff]
  unfold tie
  by_cases ha : a.time = none
  · rw [ha, hnone.mp ha]
    exact iff_of_false (by simp [opposite_self_iff]) (by simp)
  · have hsome : a.time.isSome := Option.isSome_iff_ne_none.mpr ha
    have hsome' : b.time.isSome := Option.isSome_iff_ne_none.mpr fun hb => ha (hnone.mpr hb)
    rw [if_pos hsome, if_pos hsome']
    exact iff_of_true (opposite_self_iff.mpr rfl) hsome

/-- **`taskCompare` is lawful** on exactly the sets of tasks that all have a time. -/
theorem lawful_iff (z : Zone) (P : AppTask → Prop) :
    LawfulOn P (taskCompare z) ↔ ∀ a, P a → a.time.isSome := by
  constructor
  · intro h a ha
    have hself : Opposite (taskCompare z a a) (taskCompare z a a) := h.opposite a a ha ha
    exact (opposite_taskCompare_iff z a a).mp hself rfl
  · intro h
    refine ⟨fun a ha => ?_, fun a b ha _ => ?_, fun a b c _ _ _ => ?_⟩
    · exact opposite_self_iff.mp ((opposite_taskCompare_iff z a a).mpr fun _ => h a ha)
    · exact (opposite_taskCompare_iff z a b).mpr fun _ => h a ha
    · exact (taskCompare_ordersBy_rank z).trans

/-- Two tasks of one day without a time: each comes before the other. -/
theorem not_lawful :
    taskCompare utc (.fromDS "first" (swim .never)) (.fromDS "second" (swim .never)) = -1
      ∧ taskCompare utc (.fromDS "second" (swim .never)) (.fromDS "first" (swim .never)) = -1
      ∧ ¬ LawfulOn (fun _ => True) (taskCompare utc) := by
  have hfirst : taskCompare utc (.fromDS "first" (swim .never)) (.fromDS "second" (swim .never))
      = -1 := by decide
  have hsecond : taskCompare utc (.fromDS "second" (swim .never)) (.fromDS "first" (swim .never))
      = -1 := by decide
  refine ⟨hfirst, hsecond, fun h => ?_⟩
  have hopposite := h.opposite (.fromDS "first" (swim .never)) (.fromDS "second" (swim .never))
    trivial trivial
  rw [hfirst, hsecond] at hopposite
  exact absurd (opposite_self_iff.mp hopposite) (by decide)

/-! ## The order of a list -/

theorem rank_le_iff {z : Zone} (hz : z.InOrder) (a b : AppTask) :
    rank z a ≤ rank z b ↔ key z a ≤ key z b := by
  apply orderKey_le_iff
  · intro t u
    rw [DateTime.midnight_eq, DateTime.midnight_eq]
    exact hz.midnights_le_iff
  · intro t u
    have ht := t.hour_bounds z
    have htm := t.minute_bounds z
    have hu := u.hour_bounds z
    have hum := u.minute_bounds z
    -- 1 January 1970 is day 0
    have hepoch : days (Civil.dayNumber 1970 1 1) = 0 := by decide
    simp only [DateTime.ofFields, hepoch, zero_add]
    rw [hz.clock_le_iff, Prod.Lex.toLex_le_toLex]
    all_goals
      simp only [microsecondsPerHour, microsecondsPerMinute, microsecondsPerDay]
      omega

/-- **The list order**: the comparator orders by the key, and a list in which it
finds each task before its neighbour is in the order of the keys throughout. -/
theorem taskCompare_ordersBy_key {z : Zone} (hz : z.InOrder) :
    (∀ a b, taskCompare z a b ≤ 0 ↔ key z a ≤ key z b)
      ∧ ∀ events sorted : List AppTask, sorted.Perm events →
          sorted.IsChain (fun a b => taskCompare z a b ≤ 0) →
          sorted.Pairwise fun a b => key z a ≤ key z b := by
  have horders : OrdersBy (taskCompare z) (key z) := fun a b =>
    (taskCompare_ordersBy_rank z a b).trans (rank_le_iff hz a b)
  exact ⟨horders, fun _ _ _ hchain => horders.pairwise hchain⟩

theorem taskCompare_ordersBy_key_utc :
    (∀ a b, taskCompare utc a b ≤ 0 ↔ key utc a ≤ key utc b)
      ∧ ∀ events sorted : List AppTask, sorted.Perm events →
          sorted.IsChain (fun a b => taskCompare utc a b ≤ 0) →
          sorted.Pairwise fun a b => key utc a ≤ key utc b :=
  taskCompare_ordersBy_key (.fixed .utc)

end AquaFocus.TaskOrder
