/-
`processCompletion`, and the dialog that pays for it.

A completion is two handlers: `processCompletion`, which ends by showing a
dialog, and the dialog's Back button, which credits the coins. Nothing joins
them but the dialog, so together they are one list of calls, `completion`, and
every place the app can stop is a place in that list: a call that throws, a
killed process, or a dialog closed without its button.

`completion_spec` is what a whole completion does. `completion_allOrNothing_iff`
is what a completion cut short has done: it left the store half done exactly
when it stopped between its first write and its last.
-/
import AquaFocus.AddTask

set_option autoImplicit false

open Dart Calls

namespace AquaFocus

variable (z : Zone) (c : Clock)

/-! ## The handlers -/

/-- The local variable `nextTime`, null for a one-off task. -/
def nextTimeOf (task : AppTask) : Except Fault (Option DateTime) :=
  if task.repeats ≠ .never then (findNextTime z c task).map some else .ok none

/-- The local variable `moneyAdded`. -/
def moneyAdded (task : AppTask) : ℤ :=
  if task.repeats = .never then 5 else (task.streak + 1) * (task.streak + 1)

/-- The map that reschedules a repeating task; only a task with a time gets a new one. -/
def rescheduled (task : AppTask) (streak : ℤ) (nextTime : DateTime) : TaskUpdate :=
  .reschedule c.now.millisecondsSinceEpoch streak
    (nextTime.midnight z).millisecondsSinceEpoch
    (if task.hasTime then some nextTime.millisecondsSinceEpoch else none)

/-- The reminder of the new date, which only a task with a time has. -/
def remind (task : AppTask) : List Call :=
  if task.hasTime then [.getSingle task.id, .addNotification] else []

/-- The repeating branch, for a task with a next date. -/
def reschedule (task : AppTask) (streak : ℤ) : Option DateTime → List Call
  | none => []
  | some nextTime =>
      .updateData task.id (rescheduled z c task streak nextTime) :: remind task

/-- `processCompletion`. -/
def processCompletion (task : AppTask) : List Call :=
  removeNotification z c task ++ .updateData task.id .completed ::
    match nextTimeOf z c task with
    | .error fault => [.throws fault]
    | .ok nextTime =>
        if giveMoney z c task then
          .getMoney :: (reschedule z c task (task.streak + 1) nextTime
            ++ [.showDialog (some (moneyAdded task))])
        else reschedule z c task task.streak nextTime ++ [.showDialog none]

/-- The Back button of the dialog: only `_completeTaskDialog` credits anything. -/
def backButton (task : AppTask) : List Call :=
  if giveMoney z c task then
    [.updateHomeMoney (moneyAdded task), .addMoney (moneyAdded task)]
  else []

def completion (task : AppTask) : List Call := processCompletion z c task ++ backButton z c task

/-! ## What a completion computes -/

/-- The streak a completion leaves. -/
def streakAfter (task : AppTask) : ℤ :=
  if giveMoney z c task then task.streak + 1 else task.streak

/-- The coins a completion credits. -/
def coins (task : AppTask) : ℤ := if giveMoney z c task then moneyAdded task else 0

/-- What the repeating branch makes of a document. -/
def nextDoc (task : AppTask) (streak : ℤ) (d : TaskDoc) : Option DateTime → TaskDoc
  | none => d
  | some nextTime => (rescheduled z c task streak nextTime).apply d

/-- The document a completion leaves. -/
def docAfter (task : AppTask) (d : TaskDoc) (next : Option DateTime) : TaskDoc :=
  nextDoc z c task (streakAfter z c task) (TaskUpdate.completed.apply d) next

variable {z c}

theorem giveMoney_of_never {task : AppTask} (h : task.repeats = .never) :
    giveMoney z c task = true := by
  rw [giveMoney, h]

theorem nextTimeOf_of_never {task : AppTask} (h : task.repeats = .never) :
    nextTimeOf z c task = .ok none := by
  rw [nextTimeOf, if_neg (not_not.mpr h)]

theorem nextTimeOf_of_ne {task : AppTask} (hr : task.repeats ≠ .never) :
    nextTimeOf z c task = (findNextTime z c task).map some := by
  rw [nextTimeOf, if_pos hr]

theorem nextTimeOf_of_repeats {task : AppTask} (h : task.WellFormed) (hr : task.repeats ≠ .never) :
    ∃ t, nextTimeOf z c task = .ok (some t) := by
  obtain ⟨t, ht⟩ := findNextTime_ok z c h
  refine ⟨t, ?_⟩
  rw [nextTimeOf_of_ne hr, ht]
  rfl

theorem nextTimeOf_ok {task : AppTask} (h : task.WellFormed) :
    ∃ next, nextTimeOf z c task = .ok next := by
  by_cases hr : task.repeats = .never
  · exact ⟨none, nextTimeOf_of_never hr⟩
  · obtain ⟨t, ht⟩ := nextTimeOf_of_repeats h hr
    exact ⟨some t, ht⟩

theorem moneyAdded_pos {task : AppTask} (h : task.WellFormed) : 0 < moneyAdded task := by
  have hs := h.streak_nonneg
  unfold moneyAdded
  by_cases hr : task.repeats = .never
  · rw [if_pos hr]
    decide
  · rw [if_neg hr]
    exact mul_pos (by omega) (by omega)

theorem streakAfter_nonneg {task : AppTask} (h : task.WellFormed) : 0 ≤ streakAfter z c task := by
  have hs := h.streak_nonneg
  unfold streakAfter
  split <;> omega

/-- Only a task without a next date stays completed. -/
theorem docAfter_isCompleted (task : AppTask) (d : TaskDoc) (next : Option DateTime) :
    (docAfter z c task d next).isCompleted = next.isNone := by
  cases next <;> rfl

theorem docAfter_reminder (task : AppTask) (d : TaskDoc) (next : Option DateTime) :
    (docAfter z c task d next).reminder = d.reminder := by
  cases next <;> rfl

theorem docAfter_wellFormed {task : AppTask} {d : TaskDoc} (h : task.WellFormed)
    (hd : d.WellFormed) (next : Option DateTime) : (docAfter z c task d next).WellFormed := by
  unfold docAfter nextDoc
  cases next with
  | none => exact hd.completed
  | some t => exact hd.completed.reschedule _ (streakAfter_nonneg h) _ _

/-- The calls of a completion, once its next date is known. -/
theorem completion_of_ok {task : AppTask} {next : Option DateTime}
    (h : nextTimeOf z c task = .ok next) :
    completion z c task = removeNotification z c task ++ .updateData task.id .completed ::
      if giveMoney z c task then
        (.getMoney :: (reschedule z c task (task.streak + 1) next
          ++ [.showDialog (some (moneyAdded task)), .updateHomeMoney (moneyAdded task)]))
          ++ [.addMoney (moneyAdded task)]
      else reschedule z c task task.streak next ++ [.showDialog none] := by
  unfold completion processCompletion backButton
  rw [h]
  by_cases hpaid : giveMoney z c task = true
  · simp [hpaid]
  · simp [hpaid]

/-! ## A whole completion -/

section Spec

variable {κ : Type} [DecidableEq κ] {key : AppTask → κ} {w : World κ} {task : AppTask} {d : TaskDoc}

/-- The repeating branch: one write, and the reminder of what it wrote. -/
theorem perform_reschedule (key : AppTask → κ) (z : Zone) (c : Clock)
    (hw : w.tasks task.id = some d) (hd : d.WellFormed) {s : ℤ} (hs : 0 ≤ s)
    (next : Option DateTime) :
    ∃ w', perform (exec key z c) (reschedule z c task s next) w = (w', none)
      ∧ w'.tasks = Function.update w.tasks task.id (some (nextDoc z c task s d next))
      ∧ w'.money = w.money
      ∧ w'.pending = if next.isSome ∧ task.hasTime then
            announced key z c (.fromDS task.id (nextDoc z c task s d next)) w.pending
          else w.pending := by
  cases next with
  | none => exact ⟨w, rfl, by simp [nextDoc, ← hw], rfl, by simp⟩
  | some t =>
      have hds : (AppTask.fromDS task.id (nextDoc z c task s d (some t))).WellFormed :=
        TaskDoc.WellFormed.read (hd.reschedule _ hs _ _) task.id
      unfold reschedule remind
      by_cases ht : task.hasTime = true
      · simp only [ht, if_true]
        rw [perform_cons_ok _ (exec_updateData _ hw), perform_cons_ok _ rfl,
          perform_cons_ok _ (exec_addNotification hds (by simp [nextDoc])),
          perform_nil]
        exact ⟨_, rfl, rfl, rfl, by simp⟩
      · simp only [ht, Bool.false_eq_true, if_false]
        rw [perform_cons_ok _ (exec_updateData _ hw), perform_nil]
        exact ⟨_, rfl, rfl, rfl, by simp⟩

/-- What is pending after a completion: the task's reminder is retracted, and
the reminder of its next date announced, if it has a time. -/
def pendingAfter (key : AppTask → κ) (z : Zone) (c : Clock) (task : AppTask) (d : TaskDoc)
    (next : Option DateTime) (pending : κ → Option DateTime) : κ → Option DateTime :=
  if next.isSome ∧ task.hasTime then
    announced key z c (.fromDS task.id (docAfter z c task d next))
      (retracted key z c task pending)
  else retracted key z c task pending

/-- The world after the reminder is retracted and the first write made. -/
def World.begun (key : AppTask → κ) (z : Zone) (c : Clock) (w : World κ) (task : AppTask)
    (d : TaskDoc) : World κ :=
  { w with
    pending := retracted key z c task w.pending
    tasks := Function.update w.tasks task.id (some (TaskUpdate.completed.apply d)) }

section

variable (key : AppTask → κ) (z : Zone) (c : Clock) (w : World κ) (task : AppTask) (d : TaskDoc)

@[simp] theorem begun_tasks : (w.begun key z c task d).tasks
    = Function.update w.tasks task.id (some (TaskUpdate.completed.apply d)) := rfl

@[simp] theorem begun_money : (w.begun key z c task d).money = w.money := rfl

@[simp] theorem begun_pending : (w.begun key z c task d).pending
    = retracted key z c task w.pending := rfl

end

/-- A completion goes as far as its first write, and on from there. -/
theorem perform_begin (key : AppTask → κ) (z : Zone) (c : Clock) (hw : w.tasks task.id = some d)
    (ht : task.WellFormed) (calls : List Call) :
    perform (exec key z c)
        (removeNotification z c task ++ .updateData task.id .completed :: calls) w
      = perform (exec key z c) calls (w.begun key z c task d) := by
  have hkept : ({ w with pending := retracted key z c task w.pending } : World κ).tasks task.id
      = some d := hw
  rw [perform_append _ (perform_removeNotification ht w),
    perform_cons_ok _ (exec_updateData _ hkept)]
  rfl

/-- **What a completion does**: it ends, leaves the document `docAfter`, credits
`coins`, and leaves `pendingAfter` pending. -/
theorem completion_spec (key : AppTask → κ) (z : Zone) (c : Clock) (hw : w.tasks task.id = some d)
    (hd : d.WellFormed) (ht : task.WellFormed) :
    ∃ next w', nextTimeOf z c task = .ok next
      ∧ perform (exec key z c) (completion z c task) w = (w', none)
      ∧ w'.tasks = Function.update w.tasks task.id (some (docAfter z c task d next))
      ∧ w'.money = w.money + coins z c task
      ∧ w'.pending = pendingAfter key z c task d next w.pending := by
  obtain ⟨next, hnext⟩ := nextTimeOf_ok (z := z) (c := c) ht
  have hbegun : (w.begun key z c task d).tasks task.id = some (TaskUpdate.completed.apply d) := by
    simp
  have hs : 0 ≤ streakAfter z c task := streakAfter_nonneg ht
  rw [completion_of_ok hnext, perform_begin key z c hw ht]
  by_cases hpaid : giveMoney z c task = true
  · have hstreak : streakAfter z c task = task.streak + 1 := if_pos hpaid
    -- `getMoney` comes first, and changes only what the dialog will show
    obtain ⟨v, hbranch, htasks, hmoney, hpending⟩ :=
      perform_reschedule key z c
        (w := { w.begun key z c task d with currMoney := (w.begun key z c task d).money })
        hbegun hd.completed hs next
    rw [hstreak] at hbranch htasks hpending
    rw [if_pos hpaid, List.cons_append, perform_cons_ok _ rfl, List.append_assoc,
      perform_append _ hbranch]
    refine ⟨next, _, hnext, rfl, ?_, ?_, ?_⟩
    · simp [htasks, docAfter, hstreak]
    · simp [hmoney, coins, hpaid]
    · simpa [pendingAfter, docAfter, hstreak] using hpending
  · -- unpaid: the branch is the same, with the streak as it was
    have hstreak : streakAfter z c task = task.streak := if_neg hpaid
    obtain ⟨v, hbranch, htasks, hmoney, hpending⟩ :=
      perform_reschedule key z c hbegun hd.completed hs next
    rw [hstreak] at hbranch htasks hpending
    rw [if_neg hpaid, perform_append _ hbranch]
    refine ⟨next, _, hnext, rfl, ?_, ?_, ?_⟩
    · simp [htasks, docAfter, hstreak]
    · simp [hmoney, coins, hpaid]
    · simpa [pendingAfter, docAfter, hstreak] using hpending

/-! ## A completion cut short -/

/-- Nothing is half done: a repeating task is not left completed, and a task
completed for good, or with its streak advanced, has been paid for. -/
def AllOrNothing (task : AppTask) (before after : World κ) : Prop :=
  ∀ d, after.tasks task.id = some d →
    (task.repeats ≠ .never → d.isCompleted = false)
    ∧ ((task.repeats = .never ∧ d.isCompleted = true
        ∨ task.repeats ≠ .never ∧ task.streak < d.streak) →
      after.money = before.money + moneyAdded task)

/-- Where the first write stands in the calls of a completion: `isCompleted: true`. -/
def firstWrite (z : Zone) (c : Clock) (task : AppTask) : ℕ := (removeNotification z c task).length

/-- Where the last write stands: the credit, or where none is due the rescheduling. -/
def lastWrite (z : Zone) (c : Clock) (task : AppTask) : ℕ :=
  if giveMoney z c task then (completion z c task).length - 1 else firstWrite z c task + 1

/-- A store that shows a completion nobody was paid for. -/
structure Owes (task : AppTask) (before after : World κ) : Prop where
  unpaid : after.money = before.money
  shown : ∃ d, after.tasks task.id = some d
    ∧ (d.isCompleted = true ∨ task.repeats ≠ .never ∧ task.streak < d.streak)

omit [DecidableEq κ] in
theorem Owes.not_allOrNothing {before after : World κ} (ht : task.WellFormed)
    (h : Owes task before after) : ¬ AllOrNothing task before after := by
  intro hall
  obtain ⟨d, hd, hdone⟩ := h.shown
  obtain ⟨hopen, hpaid⟩ := hall d hd
  have hpos := moneyAdded_pos ht
  have hunpaid := h.unpaid
  by_cases hr : task.repeats = .never
  · rcases hdone with hdone | ⟨hrep, -⟩
    · -- a one-off task is completed, so it would have been paid
      have := hpaid (.inl ⟨hr, hdone⟩)
      omega
    · exact hrep hr
  · rcases hdone with hdone | hstreak
    · -- a repeating task is never left completed
      rw [hopen hr] at hdone
      exact absurd hdone (by decide)
    · have := hpaid (.inr hstreak)
      omega

theorem remind_writes {call : Call} (h : call ∈ remind task) : call.writes = false := by
  unfold remind at h
  by_cases ht : task.hasTime = true
  · rw [if_pos ht] at h
    simp only [List.mem_cons, List.not_mem_nil, or_false] at h
    rcases h with rfl | rfl <;> rfl
  · rw [if_neg ht] at h
    exact absurd h List.not_mem_nil

/-- The repeating branch writes once. -/
theorem mem_reschedule {s : ℤ} {next : Option DateTime} {call : Call}
    (h : call ∈ reschedule z c task s next) :
    (∃ t, next = some t ∧ call = .updateData task.id (rescheduled z c task s t))
      ∨ call.writes = false := by
  cases next with
  | none => exact absurd h List.not_mem_nil
  | some t =>
      rcases List.mem_cons.mp h with rfl | h
      · exact .inl ⟨t, rfl, rfl⟩
      · exact .inr (remind_writes h)

omit [DecidableEq κ] in
/-- What a call that writes nothing leaves of what is owed. -/
theorem Owes.of_store {before after after' : World κ} (h : Owes task before after)
    (hstore : after'.tasks = after.tasks ∧ after'.money = after.money) :
    Owes task before after' := by
  obtain ⟨htasks, hmoney⟩ := hstore
  exact ⟨hmoney.trans h.unpaid, by rw [htasks]; exact h.shown⟩

/-- Between its first write and the credit, a paid completion is owed. -/
theorem Owes.paid_call {before : World κ} {next : Option DateTime} {m : ℤ}
    (hnext : nextTimeOf z c task = .ok next) :
    ∀ call ∈ Call.getMoney :: (reschedule z c task (task.streak + 1) next
        ++ [.showDialog (some m), .updateHomeMoney m]),
      ∀ s s', Owes task before s → exec key z c call s = .ok s' → Owes task before s' := by
  intro call hcall s s' hs hexec
  have hcases : (∃ t, next = some t
      ∧ call = .updateData task.id (rescheduled z c task (task.streak + 1) t))
      ∨ call.writes = false := by
    simp only [List.mem_cons, List.mem_append, List.not_mem_nil, or_false] at hcall
    rcases hcall with rfl | hcall | rfl | rfl
    · exact .inr rfl
    · exact mem_reschedule hcall
    · exact .inr rfl
    · exact .inr rfl
  rcases hcases with ⟨t, rfl, rfl⟩ | hsilent
  · -- only a repeating task has a next date
    have hr : task.repeats ≠ .never := by
      intro hr
      rw [nextTimeOf_of_never hr] at hnext
      cases hnext
    obtain ⟨d, hd, -⟩ := hs.shown
    rw [exec_updateData _ hd, Except.ok.injEq] at hexec
    subst hexec
    refine ⟨hs.unpaid, _, Function.update_self .., .inr ⟨hr, ?_⟩⟩
    exact Int.lt_succ task.streak
  · exact hs.of_store (exec_store hsilent hexec)

/-- A completion stopped after its first write runs the calls from there. -/
theorem perform_begin_take (hw : w.tasks task.id = some d) (ht : task.WellFormed)
    (calls : List Call) {k : ℕ} (hk : firstWrite z c task < k) :
    perform (exec key z c)
        ((removeNotification z c task ++ .updateData task.id .completed :: calls).take k) w
      = perform (exec key z c) (calls.take (k - (firstWrite z c task + 1)))
          (w.begun key z c task d) := by
  have hlen : (removeNotification z c task ++ [Call.updateData task.id .completed]).length
      = firstWrite z c task + 1 := by
    rw [List.length_append]
    rfl
  have hbegin := perform_begin key z c hw ht []
  -- the program splits behind its first write
  rw [show removeNotification z c task ++ Call.updateData task.id .completed :: calls
      = (removeNotification z c task ++ [.updateData task.id .completed]) ++ calls by simp,
    perform_take (by omega) hbegin, hlen]

/-- A completion stopped before its first write has done nothing to the store. -/
theorem allOrNothing_of_le (task : AppTask) (hw : w.tasks task.id = some d)
    (hopen : d.isCompleted = false) (hstreak : d.streak = task.streak) (calls : List Call) {k : ℕ}
    (hk : k ≤ firstWrite z c task) :
    AllOrNothing task w (perform (exec key z c)
      ((removeNotification z c task ++ calls).take k) w).1 := by
  have hsilent : ∀ call ∈ removeNotification z c task, ∀ s s' : World κ,
      exec key z c call s = .ok s' → s'.tasks task.id = s.tasks task.id := by
    intro call hcall s s' h
    rw [(exec_store (removeNotification_writes z c task call hcall) h).1]
  -- cancelling a notification writes nothing to the store
  have hview := view_perform_take (fun v : World κ => v.tasks task.id) calls hk hsilent w
  intro d' hd'
  rw [hview, hw, Option.some.injEq] at hd'
  subst hd'
  refine ⟨fun _ => hopen, ?_⟩
  rintro (⟨-, hdone⟩ | ⟨-, hadv⟩)
  · rw [hopen] at hdone
    exact absurd hdone (by decide)
  · omega

/-- After the first write a completion is owed. -/
theorem owes_begun : Owes task w (w.begun key z c task d) :=
  ⟨rfl, TaskUpdate.completed.apply d, by simp, .inl rfl⟩

/-- A paid completion cut after its first write, and before the credit, is owed. -/
theorem owes_of_paid {next : Option DateTime} (hnext : nextTimeOf z c task = .ok next)
    (hpaid : giveMoney z c task = true) (hw : w.tasks task.id = some d) (ht : task.WellFormed)
    {k : ℕ} (hfirst : firstWrite z c task < k) (hlast : k ≤ lastWrite z c task) :
    Owes task w (perform (exec key z c) ((completion z c task).take k) w).1 := by
  have hlen := congrArg List.length (completion_of_ok hnext)
  rw [if_pos hpaid] at hlen
  simp only [List.length_append, List.length_cons, List.length_nil] at hlen
  rw [completion_of_ok hnext, if_pos hpaid, perform_begin_take hw ht _ hfirst]
  unfold lastWrite firstWrite at *
  rw [if_pos hpaid] at hlast
  -- the cut leaves out the last call, which is the credit
  rw [List.take_append_of_le_length (by simp; omega)]
  exact perform_invariant
    (fun call hcall => Owes.paid_call hnext call (List.mem_of_mem_take hcall)) owes_begun

/-- An unpaid completion cut anywhere after its rescheduling write is whole. -/
theorem allOrNothing_of_unpaid {id : String} (hw : w.tasks id = some d) (hd : d.WellFormed)
    (hpaid : giveMoney z c (.fromDS id d) = false) {k : ℕ} (hk : lastWrite z c (.fromDS id d) < k) :
    AllOrNothing (.fromDS id d) w
      (perform (exec key z c) ((completion z c (.fromDS id d)).take k) w).1 := by
  have ht : (AppTask.fromDS id d).WellFormed := hd.read id
  have hrep : (AppTask.fromDS id d).repeats ≠ .never := by
    intro hr
    rw [giveMoney_of_never hr] at hpaid
    exact absurd hpaid (by decide)
  obtain ⟨t, hnext⟩ := nextTimeOf_of_repeats (z := z) (c := c) ht hrep
  have hpaid' : ¬ giveMoney z c (.fromDS id d) = true := by
    rw [hpaid]
    decide
  unfold lastWrite at hk
  rw [if_neg hpaid'] at hk
  obtain ⟨j, hj⟩ : ∃ j, k - (firstWrite z c (.fromDS id d) + 1) = j + 1 :=
    ⟨k - (firstWrite z c (.fromDS id d) + 1) - 1, by omega⟩
  have hbegun : (w.begun key z c (.fromDS id d) d).tasks (AppTask.fromDS id d).id
      = some (TaskUpdate.completed.apply d) := by
    simp
  rw [completion_of_ok hnext, if_neg hpaid', perform_begin_take hw ht _ (by omega), hj]
  unfold reschedule
  rw [List.cons_append, List.take_succ_cons, perform_cons_ok _ (exec_updateData _ hbegun)]
  -- what is left of the program writes nothing
  have hsilent : ∀ call ∈ (remind (.fromDS id d) ++ [Call.showDialog none]).take j,
      call.writes = false := by
    intro call hcall
    rcases List.mem_append.mp (List.mem_of_mem_take hcall) with hcall | hcall
    · exact remind_writes hcall
    · rw [List.mem_singleton.mp hcall]
      rfl
  intro d' hd'
  rw [AppTask.fromDS_id, (perform_store hsilent _).1] at hd'
  simp only [Function.update_self, Option.some.injEq] at hd'
  subst hd'
  refine ⟨fun _ => rfl, ?_⟩
  rintro (⟨hr, -⟩ | ⟨-, hadv⟩)
  · exact absurd hr hrep
  · exact absurd hadv (lt_irrefl d.streak)

/-- A completion that was not cut leaves nothing half done. -/
theorem allOrNothing_of_length_le {id : String} (hw : w.tasks id = some d) (hd : d.WellFormed)
    (hpaid : giveMoney z c (.fromDS id d) = true) {k : ℕ}
    (hk : (completion z c (.fromDS id d)).length ≤ k) :
    AllOrNothing (.fromDS id d) w
      (perform (exec key z c) ((completion z c (.fromDS id d)).take k) w).1 := by
  have ht : (AppTask.fromDS id d).WellFormed := hd.read id
  obtain ⟨next, w', hnext, hp, htasks, hmoney, -⟩ := completion_spec key z c hw hd ht
  rw [List.take_of_length_le hk, hp]
  intro d' hd'
  rw [htasks, AppTask.fromDS_id, Function.update_self, Option.some.injEq] at hd'
  subst hd'
  refine ⟨fun hrep => ?_, fun _ => ?_⟩
  · obtain ⟨t, hsome⟩ := nextTimeOf_of_repeats (z := z) (c := c) ht hrep
    rw [hnext, Except.ok.injEq] at hsome
    rw [hsome]
    rfl
  · rw [hmoney, coins, if_pos hpaid]

/-- **Where a completion may stop.** Stopped after any number `k` of its calls,
it has left the store half done exactly when it had made its first write and not
its last. -/
theorem completion_allOrNothing_iff (key : AppTask → κ) (z : Zone) (c : Clock) {id : String}
    (hw : w.tasks id = some d) (hd : d.WellFormed) (hopen : d.isCompleted = false) (k : ℕ) :
    AllOrNothing (.fromDS id d) w
        (perform (exec key z c) ((completion z c (.fromDS id d)).take k) w).1
      ↔ k ≤ firstWrite z c (.fromDS id d) ∨ lastWrite z c (.fromDS id d) < k := by
  have ht : (AppTask.fromDS id d).WellFormed := hd.read id
  obtain ⟨next, hnext⟩ := nextTimeOf_ok (z := z) (c := c) ht
  by_cases hfirst : k ≤ firstWrite z c (.fromDS id d)
  · rw [completion_of_ok hnext]
    exact iff_of_true (allOrNothing_of_le _ hw hopen rfl _ hfirst) (.inl hfirst)
  · by_cases hlast : lastWrite z c (.fromDS id d) < k
    · refine iff_of_true ?_ (.inr hlast)
      by_cases hpaid : giveMoney z c (.fromDS id d) = true
      · unfold lastWrite at hlast
        rw [if_pos hpaid] at hlast
        exact allOrNothing_of_length_le hw hd hpaid (by omega)
      · exact allOrNothing_of_unpaid hw hd (by simpa using hpaid) hlast
    · refine iff_of_false ?_ (by omega)
      by_cases hpaid : giveMoney z c (.fromDS id d) = true
      · exact (owes_of_paid hnext hpaid hw ht (by omega) (by omega)).not_allOrNothing ht
      · unfold lastWrite at hlast
        rw [if_neg hpaid] at hlast
        have hk : k - (firstWrite z c (.fromDS id d) + 1) = 0 := by omega
        rw [completion_of_ok hnext, if_neg hpaid, perform_begin_take hw ht _ (by omega), hk]
        exact Owes.not_allOrNothing ht owes_begun

end Spec

/-! ## The dialog closed by the system -/

/-- A store with the one task, and no money. -/
def oneTask (repeats : Repeat) : World String :=
  { World.empty with tasks := Function.update (fun _ => none) "doc" (some (swim repeats)) }

/-- A one-off task is completed, and the dialog closed without its button: the
document says completed, and nothing is credited. -/
theorem completion_not_allOrNothing :
    ¬ AllOrNothing (.fromDS "doc" (swim .never)) (oneTask .never)
        (perform (exec AppTask.id utc (noonOfJune 1))
          (processCompletion utc (noonOfJune 1) (.fromDS "doc" (swim .never)))
          (oneTask .never)).1 := by
  intro h
  have hpaid := (h _ rfl).2 (.inl ⟨rfl, rfl⟩)
  exact absurd hpaid (by decide)

theorem completion_allOrNothing_iff_swim :
    AllOrNothing (.fromDS "doc" (swim .daily)) (oneTask .daily)
        (perform (exec AppTask.id utc (noonOfJune 1))
          ((completion utc (noonOfJune 1) (.fromDS "doc" (swim .daily))).take 3)
          (oneTask .daily)).1
      ↔ 3 ≤ firstWrite utc (noonOfJune 1) (.fromDS "doc" (swim .daily))
        ∨ lastWrite utc (noonOfJune 1) (.fromDS "doc" (swim .daily)) < 3 :=
  completion_allOrNothing_iff AppTask.id utc (noonOfJune 1) rfl (swim_wellFormed _) rfl 3

end AquaFocus
