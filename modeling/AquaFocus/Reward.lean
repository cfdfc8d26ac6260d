/-
The reward rule, over whole runs of completions of one task.

`giveMoney` looks at one earlier completion only, the last, through
`prevCompletionTime`. In a zone of constant offset it looks at no more than the
calendar days of the two instants (`giveMoney_fixed`), and for the repeat rules
with a fixed period it asks whether the two days lie in different periods: days,
or Monday-to-Sunday weeks (`rewardDue_iff_period`).

A run is a list of instants, each completing the task as it is then stored.
`history` is what the run pays, and `history_lawful` the rule it pays by: once in
a period, one coin more than a square more each time. What carries the induction
is `Tracks`: the document's `prevCompletionTime` lies on the day of the last
completion, and its streak counts the paid ones.
-/
import AquaFocus.Completion
import AquaFocus.Reschedule

set_option autoImplicit false

open Dart Calls

namespace AquaFocus

/-! ## The test, by calendar days -/

/-- What `giveMoney` answers when the last completion was on day `p` and it is
day `n`. -/
def rewardDue (repeats : Repeat) (p n : ℤ) : Bool :=
  match repeats with
  | .never => true
  | .daily | .weekdays | .weekends => decide (p < n)
  | .weekly => decide (Civil.weekdayOf n < Civil.weekdayOf p ∨ p + 7 ≤ n)
  | .monthly => decide (Civil.monthOf p ≠ Civil.monthOf n)

/-- The period of a day: its week for a weekly task, else the day itself. -/
def periodOf (repeats : Repeat) (n : ℤ) : ℤ :=
  match repeats with
  | .weekly => Civil.weekOf n
  | _ => n

/-- The repeat rules with a period of so many days. -/
def Repeat.periodic : Repeat → Bool
  | .daily | .weekdays | .weekends | .weekly => true
  | .monthly | .never => false

section Fixed

variable (offset : UtcOffset)

theorem daysBetween_fixed (t u : DateTime) :
    daysBetween (.fixed offset) t u = u.epochDay (.fixed offset) - t.epochDay (.fixed offset) := by
  -- all midnights have the one offset
  have hoff : ∀ n, (Zone.fixed offset).midnightOffset n
      = offset.seconds * microsecondsPerSecond := fun n => sub_sub_cancel _ _
  exact daysBetween_eq (by rw [hoff, hoff, sub_self]; decide) (by rw [hoff, hoff, sub_self]; decide)

/-- The reward test sees the two calendar days. -/
theorem giveMoney_fixed (now : DateTime) {task : AppTask}
    (hprev : task.prevCompletionTime.isUtc = false) :
    giveMoney (.fixed offset) (.read (.fixed offset) now) task
      = rewardDue task.repeats (task.prevCompletionTime.epochDay (.fixed offset))
          (now.epochDay (.fixed offset)) := by
  have hdate : (Clock.read (.fixed offset) now).nowDate
      = DateTime.dayStart offset (now.epochDay (.fixed offset)) :=
    DateTime.midnight_fixed offset now
  have hday : task.prevCompletionTime.isBefore (Clock.read (.fixed offset) now).nowDate
      = decide (task.prevCompletionTime.epochDay (.fixed offset)
          < now.epochDay (.fixed offset)) := by
    rw [hdate, DateTime.isBefore_dayStart offset _ _ hprev]
  cases hr : task.repeats with
  | never => simp only [giveMoney, rewardDue, hr]
  | daily => simp only [giveMoney, rewardDue, hr, hday]
  | weekdays => simp only [giveMoney, rewardDue, hr, hday]
  | weekends => simp only [giveMoney, rewardDue, hr, hday]
  | monthly => simp only [giveMoney, rewardDue, hr]; rfl
  | weekly => exact giveMoney_weekly hr (daysBetween_fixed offset task.prevCompletionTime now)

end Fixed

/-- For a rule with a period, a reward is due when the period is another one. -/
theorem rewardDue_iff_period {repeats : Repeat} (hr : repeats.periodic = true) {p n : ℤ}
    (h : p ≤ n) :
    rewardDue repeats p n = true ↔ periodOf repeats p ≠ periodOf repeats n := by
  have hday : decide (p < n) = true ↔ p ≠ n := by
    rw [decide_eq_true_eq]
    omega
  unfold rewardDue periodOf
  cases repeats with
  | never => exact absurd hr (by decide)
  | monthly => exact absurd hr (by decide)
  | daily => exact hday
  | weekdays => exact hday
  | weekends => exact hday
  | weekly => rw [decide_eq_true_eq, Civil.weekOf_ne_iff h]

theorem periodOf_mono (repeats : Repeat) {m n : ℤ} (h : m ≤ n) :
    periodOf repeats m ≤ periodOf repeats n := by
  unfold periodOf
  cases repeats with
  | weekly =>
      simp only [Civil.weekOf]
      omega
  | _ => exact h

/-! ## Runs of completions

Instants are microseconds since the epoch, as `DateTime.now()` reads them. -/

section Run

variable {κ : Type} [DecidableEq κ]

/-- One completion in a run: when it was, what it credited, and the streak it left. -/
structure Payment where
  time : ℤ
  coins : ℤ
  streak : ℤ

/-- Completing the task `id`, as it is stored, at the instant `t`. -/
def completeAt (key : AppTask → κ) (z : Zone) (id : String) (t : ℤ) (w : World κ) : World κ :=
  match w.tasks id with
  | none => w
  | some d =>
      (perform (exec key z (.read z (.ofMicros t)))
        (completion z (.read z (.ofMicros t)) (.fromDS id d)) w).1

/-- What one completion credits, and the streak it leaves. -/
def payment (key : AppTask → κ) (z : Zone) (id : String) (t : ℤ) (w : World κ) : Payment where
  time := t
  coins := (completeAt key z id t w).money - w.money
  streak := ((completeAt key z id t w).tasks id).elim 0 TaskDoc.streak

/-- The same of a run of completions. -/
def history (key : AppTask → κ) (z : Zone) (id : String) : List ℤ → World κ → List Payment
  | [], _ => []
  | t :: ts, w => payment key z id t w :: history key z id ts (completeAt key z id t w)

/-- How many of the completions paid. -/
def paid (h : List Payment) : ℕ := h.countP fun e => decide (e.coins ≠ 0)

/-- The rule for a completion, after the completions `before` it: it pays once in
a period, the streak counts the paid ones, and the `k`-th of them pays `k * k`. -/
structure Lawful (period : ℤ → ℤ) (before : List Payment) (e : Payment) : Prop where
  once : e.coins ≠ 0 ↔ ∀ e' ∈ before, period e'.time ≠ period e.time
  counts : e.streak = paid (before ++ [e])
  square : e.coins ≠ 0 → e.coins = paid (before ++ [e]) * paid (before ++ [e])

theorem paid_append (before : List Payment) (e : Payment) :
    (paid (before ++ [e]) : ℤ) = if e.coins ≠ 0 then (paid before : ℤ) + 1 else paid before := by
  unfold paid
  rw [List.countP_append, List.countP_singleton]
  split <;> simp_all

/-- The day of an instant, in a zone of constant offset. -/
def dayOf (offset : UtcOffset) (t : ℤ) : ℤ := (DateTime.ofMicros t).epochDay (.fixed offset)

/-- The day of a document's last completion. -/
def lastDay (offset : UtcOffset) (d : TaskDoc) : ℤ :=
  (DateTime.ofMillis d.prevCompletionTime).epochDay (.fixed offset)

/-- How a document stands to the completions so far: it remembers the day of the
last one, day `0` when there was none, and counts the paid ones. -/
structure Tracks (offset : UtcOffset) (repeats : Repeat) (before : List Payment) (d : TaskDoc) :
    Prop where
  wellFormed : d.WellFormed
  rule : d.repeats = repeats
  counts : d.streak = paid before
  last : lastDay offset d = 0 ∨ ∃ e ∈ before, dayOf offset e.time = lastDay offset d
  latest : ∀ e ∈ before, dayOf offset e.time ≤ lastDay offset d

variable {key : AppTask → κ} {offset : UtcOffset} {repeats : Repeat} {id : String}
  {before : List Payment} {d : TaskDoc} {w : World κ}

/-- From 2022 on, a day is later than day `0`, and its instants are positive. -/
theorem dayOf_of_year {t : ℤ} (h : 2022 ≤ (DateTime.ofMicros t).year (.fixed offset)) :
    18993 ≤ dayOf offset t := by
  have hyear := (Civil.yearOf_bounds (dayOf offset t)).1
  have hmono := Civil.dayFromYear_mono h
  have h2022 : Civil.dayFromYear 2022 = 18993 := by decide
  unfold DateTime.year at hmono
  unfold dayOf at *
  omega

theorem pos_of_dayOf {t : ℤ} (h : 18993 ≤ dayOf offset t) : 0 ≤ t := by
  have hwall := ((DateTime.ofMicros t).wallClock_bounds (.fixed offset)).2
  simp only [dayOf, DateTime.epochDay, DateTime.ofMicros, microsecondsPerDay] at *
  omega

/-- A reward is due exactly when no completion so far was in this period. -/
theorem Tracks.due_iff (h : Tracks offset repeats before d) (hr : repeats.periodic = true) {n : ℤ}
    (hlast : lastDay offset d ≤ n) (hn : 18993 ≤ n) :
    rewardDue repeats (lastDay offset d) n = true
      ↔ ∀ e ∈ before, periodOf repeats (dayOf offset e.time) ≠ periodOf repeats n := by
  rw [rewardDue_iff_period hr hlast]
  constructor
  · -- the periods go up, so an earlier completion in this one would bring the last into it
    intro hne e he heq
    have h1 := periodOf_mono repeats (h.latest e he)
    have h2 := periodOf_mono repeats hlast
    omega
  · intro hall
    rcases h.last with hzero | ⟨e, he, hday⟩
    · -- never completed: day `0` lies in no period from 2022 on
      rw [hzero]
      intro heq
      unfold periodOf Civil.weekOf at heq
      split at heq <;> omega
    · rw [← hday]
      exact hall e he

/-- What completing a stored repeating task leaves. -/
theorem completeAt_spec (key : AppTask → κ) (z : Zone) (hw : w.tasks id = some d)
    (hd : d.WellFormed) (hr : d.repeats ≠ .never) (t : ℤ) :
    ∃ next, (completeAt key z id t w).tasks id
        = some (docAfter z (.read z (.ofMicros t)) (.fromDS id d) d (some next))
      ∧ (completeAt key z id t w).money
        = w.money + coins z (.read z (.ofMicros t)) (.fromDS id d) := by
  have ht : (AppTask.fromDS id d).WellFormed := hd.read id
  have hrep : (AppTask.fromDS id d).repeats ≠ .never := hr
  obtain ⟨next, w', hnext, hp, htasks, hmoney, -⟩ :=
    completion_spec key z (.read z (.ofMicros t)) hw hd ht
  obtain ⟨t', hsome⟩ := nextTimeOf_of_repeats (z := z) (c := .read z (.ofMicros t)) ht hrep
  rw [hnext, Except.ok.injEq] at hsome
  -- the next date is there, as the task repeats
  subst hsome
  unfold completeAt
  simp only [hw, hp]
  exact ⟨t', by rw [htasks, AppTask.fromDS_id, Function.update_self], hmoney⟩

/-- What completing a tracked task pays, and the streak it leaves: one square more where
a reward is due, and nothing where it is not. -/
theorem Tracks.payment_spec (key : AppTask → κ) (h : Tracks offset repeats before d)
    (hr : repeats.periodic = true) (hw : w.tasks id = some d) (t : ℤ) :
    ∃ next, (completeAt key (.fixed offset) id t w).tasks id
        = some (docAfter (.fixed offset) (.read (.fixed offset) (.ofMicros t)) (.fromDS id d) d
            (some next))
      ∧ (payment key (.fixed offset) id t w).coins
        = (if rewardDue repeats (lastDay offset d) (dayOf offset t) = true
            then ((paid before : ℤ) + 1) * ((paid before : ℤ) + 1) else 0)
      ∧ (payment key (.fixed offset) id t w).streak
        = (if rewardDue repeats (lastDay offset d) (dayOf offset t) = true
            then (paid before : ℤ) + 1 else paid before) := by
  have hnever : d.repeats ≠ .never := by
    rw [h.rule]
    rintro rfl
    exact absurd hr (by decide)
  have hverdict : giveMoney (.fixed offset) (.read (.fixed offset) (.ofMicros t)) (.fromDS id d)
      = rewardDue repeats (lastDay offset d) (dayOf offset t) := by
    rw [giveMoney_fixed offset _ rfl, AppTask.fromDS_repeats, h.rule]
    rfl
  obtain ⟨next, htasks, hmoney⟩ := completeAt_spec key (.fixed offset) hw h.wellFormed hnever t
  refine ⟨next, htasks, ?_, ?_⟩
  · unfold payment
    rw [hmoney, coins, moneyAdded, if_neg (show (AppTask.fromDS id d).repeats ≠ .never from hnever),
      hverdict, AppTask.fromDS_streak, h.counts, add_sub_cancel_left]
  · have hafter : (docAfter (.fixed offset) (.read (.fixed offset) (.ofMicros t)) (.fromDS id d) d
          (some next)).streak
        = streakAfter (.fixed offset) (.read (.fixed offset) (.ofMicros t)) (.fromDS id d) := rfl
    unfold payment
    rw [htasks, Option.elim_some, hafter, streakAfter, hverdict, AppTask.fromDS_streak, h.counts]

/-- One completion pays by the rule, and leaves a document that tracks it. -/
theorem Tracks.step (key : AppTask → κ) (h : Tracks offset repeats before d)
    (hr : repeats.periodic = true) (hw : w.tasks id = some d) {t : ℤ}
    (hyear : 18993 ≤ dayOf offset t) (hlast : lastDay offset d ≤ dayOf offset t) :
    ∃ d', (completeAt key (.fixed offset) id t w).tasks id = some d'
      ∧ Lawful (fun t => periodOf repeats (dayOf offset t)) before
          (payment key (.fixed offset) id t w)
      ∧ Tracks offset repeats (before ++ [payment key (.fixed offset) id t w]) d'
      ∧ lastDay offset d' = dayOf offset t := by
  obtain ⟨next, htasks, hcoins, hstreak⟩ := h.payment_spec key hr hw t
  generalize hd' : docAfter (.fixed offset) (.read (.fixed offset) (.ofMicros t)) (.fromDS id d) d
    (some next) = d' at htasks
  generalize hdue : rewardDue repeats (lastDay offset d) (dayOf offset t) = due at hcoins hstreak
  have hpaid : (payment key (.fixed offset) id t w).coins ≠ 0 ↔ due = true := by
    rw [hcoins]
    by_cases hd : due = true
    · rw [if_pos hd]
      exact iff_of_true (mul_self_ne_zero.mpr (by omega)) hd
    · rw [if_neg hd]
      exact iff_of_false (fun hne => hne rfl) hd
  have hcount : (paid (before ++ [payment key (.fixed offset) id t w]) : ℤ)
      = if due = true then (paid before : ℤ) + 1 else paid before := by
    rw [paid_append, if_congr hpaid rfl rfl]
  -- the completion is stored as the last one, cut to milliseconds
  have hday : lastDay offset d' = dayOf offset t := by
    rw [← hd']
    exact DateTime.epochDay_ofMillis offset (.ofMicros t) rfl (pos_of_dayOf hyear)
  refine ⟨d', htasks, ⟨?_, ?_, ?_⟩, ⟨?_, ?_, ?_, ?_, ?_⟩, hday⟩
  · rw [hpaid, ← hdue]
    exact h.due_iff hr hlast hyear
  · rw [hstreak, hcount]
  · intro hne
    rw [hcoins, hcount, if_pos (hpaid.mp hne), if_pos (hpaid.mp hne)]
  · rw [← hd']
    exact docAfter_wellFormed (h.wellFormed.read id) h.wellFormed _
  · rw [← hd']
    exact h.rule
  · rw [hcount, ← hstreak, payment, htasks, Option.elim_some]
  · exact .inr ⟨_, List.mem_append_right _ (List.mem_singleton_self _), hday.symm⟩
  · intro e he
    rw [hday]
    rcases List.mem_append.mp he with he | he
    · exact (h.latest e he).trans hlast
    · rw [List.mem_singleton.mp he]
      exact le_refl _

/-- A run from a tracked document pays by the rule throughout. -/
theorem history_lawful_from (hr : repeats.periodic = true) (ts : List ℤ)
    (hsorted : ts.Pairwise (· ≤ ·)) (hyears : ∀ t ∈ ts, 18993 ≤ dayOf offset t)
    (h : Tracks offset repeats before d) (hw : w.tasks id = some d)
    (hlast : ∀ t ∈ ts, lastDay offset d ≤ dayOf offset t) :
    ∀ pre e post, history key (.fixed offset) id ts w = pre ++ e :: post →
      Lawful (fun t => periodOf repeats (dayOf offset t)) (before ++ pre) e := by
  induction ts generalizing before d w with
  | nil =>
      intro pre e post heq
      exact absurd heq (by simp [history])
  | cons t ts ih =>
      intro pre e post heq
      obtain ⟨hfirst, hrest⟩ := List.pairwise_cons.mp hsorted
      obtain ⟨d', hw', hlaw, htracks, hday⟩ := h.step key hr hw
        (hyears t List.mem_cons_self) (hlast t List.mem_cons_self)
      rw [history] at heq
      cases pre with
      | nil =>
          rw [List.nil_append, List.cons.injEq] at heq
          rw [List.append_nil, ← heq.1]
          exact hlaw
      | cons p pre =>
          rw [List.cons_append, List.cons.injEq] at heq
          obtain ⟨rfl, heq⟩ := heq
          -- the rest of the run starts on the day of this completion
          have hlater : ∀ u ∈ ts, lastDay offset d' ≤ dayOf offset u := by
            intro u hu
            rw [hday]
            exact DateTime.epochDay_mono offset rfl rfl (hfirst u hu)
          -- the first completion joins those before
          have hlaw' := ih hrest (fun u hu => hyears u (List.mem_cons_of_mem t hu)) htracks hw'
            hlater pre e post heq
          rwa [List.append_assoc, List.singleton_append] at hlaw'

/-- A new task tracks the empty run: nobody completed it before 1970. -/
theorem tracks_newTask (offset : UtcOffset) (uid uuid : String) (data : FormData) :
    Tracks offset data.repeats [] (newTask (.fixed offset) uid uuid data) := by
  have hepoch : lastDay offset (newTask (.fixed offset) uid uuid data) = 0 := by
    have hstart : Civil.dayNumber 1970 1 1 = 0 := by decide
    unfold lastDay newTask
    simp only [DateTime.ofDate_fixed, hstart, DateTime.ofMillis_dayStart,
      DateTime.epochDay_dayStart]
  exact ⟨newTask_wellFormed .., rfl, rfl, .inl hepoch, fun e he => absurd he List.not_mem_nil⟩

/-- **The reward rule**: a run of completions of a new daily, weekday, weekend or
weekly task, at nondecreasing instants from 2022 on, pays once in a period, and
`k * k` the `k`-th time. -/
theorem history_lawful (key : AppTask → κ) (offset : UtcOffset) (id uid uuid : String)
    (data : FormData) (hr : data.repeats.periodic = true) (w : World κ)
    (hw : w.tasks id = some (newTask (.fixed offset) uid uuid data)) (ts : List ℤ)
    (hsorted : ts.Pairwise (· ≤ ·))
    (hyears : ∀ t ∈ ts, 2022 ≤ (DateTime.ofMicros t).year (.fixed offset)) :
    ∀ pre e post, history key (.fixed offset) id ts w = pre ++ e :: post →
      Lawful (fun t => periodOf data.repeats (dayOf offset t)) pre e := by
  have htracks := tracks_newTask offset uid uuid data
  have hdays : ∀ t ∈ ts, 18993 ≤ dayOf offset t := fun t ht => dayOf_of_year (hyears t ht)
  have hlast : ∀ t ∈ ts,
      lastDay offset (newTask (.fixed offset) uid uuid data) ≤ dayOf offset t := by
    intro t ht
    rcases htracks.last with hzero | ⟨e, he, -⟩
    · have := hdays t ht
      omega
    · exact absurd he List.not_mem_nil
  exact history_lawful_from hr ts hsorted hdays htracks hw hlast

end Run

/-- Three completions of a daily task: at noon and an hour later on 1 June 2022,
and at noon on 2 June. The last is the second paid one. -/
theorem history_lawful_swim :
    Lawful (fun t => periodOf .daily (dayOf .utc t))
      [⟨1654084800000000, 1, 1⟩, ⟨1654088400000000, 0, 1⟩] ⟨1654171200000000, 4, 2⟩ :=
  history_lawful AppTask.id .utc "doc" "uid" "uuid" (.untimed 1654041600000 .daily) rfl
    (oneTask .daily) rfl [1654084800000000, 1654088400000000, 1654171200000000] (by decide)
    (by decide) [⟨1654084800000000, 1, 1⟩, ⟨1654088400000000, 0, 1⟩] ⟨1654171200000000, 4, 2⟩ []
    rfl

end AquaFocus
