/-
Where the app dereferences a nullable value of a task.

`hasTime`, `time` and `reminder` are written by the form and by the completion,
and `time` is dereferenced under four different guards: under `reminder` in
`isScheduledEvent`, under its result in `scheduleNotification`, under `hasTime`
in `findNextTime` and in `eventTime`. `Timed` is what links the three fields;
`always_dereferences` says that every task that is ever stored has it, and so
that no guard lets a null through.
-/
import AquaFocus.TagList

set_option autoImplicit false

open Dart Calls Runs

namespace AquaFocus.NullChecks

open TagList

/-! ## The two functions that show a time -/

/-- What `scheduleNotification` puts into its text: the title, and the hour and
the minute of `task.time!`. -/
def scheduleNotification (z : Zone) (task : AppTask) : Except Fault (String × ℤ × ℤ) :=
  match task.time with
  | none => .error .nullCheck
  | some time => .ok (task.title, time.hour z, time.minute z)

/-- `expiredDate`. -/
def expiredDate (z : Zone) (c : Clock) (event : AppTask) : Bool :=
  (event.date.midnight z).isBefore c.nowDate

/-- `expiredTime`. -/
def expiredTime (z : Zone) (c : Clock) (event : AppTask) : Except Fault Bool :=
  match event.time with
  | none => .error .nullCheck
  | some time =>
      let eventTime := DateTime.ofFields z 1970 1 1 (time.hour z) (time.minute z)
      .ok (expiredDate z c event
        || eventTime.isBefore c.nowTime && (event.date.midnight z).isAtSameMomentAs c.nowDate)

/-- The colours a time is shown in. -/
inductive Style
  | grey | red | white
deriving DecidableEq, Repr

/-- `eventTime`: nothing, or the hour and the minute in a colour. -/
def eventTime (z : Zone) (c : Clock) (event : AppTask) :
    Except Fault (Option (ℤ × ℤ × Style)) :=
  if event.hasTime then
    let style :=
      if event.isCompleted then .ok .grey
      else (expiredTime z c event).map fun expired => if expired then .red else .white
    match style with
    | .error fault => .error fault
    | .ok style =>
        match event.time with
        | none => .error .nullCheck
        | some time => .ok (some (time.hour z, time.minute z, style))
  else .ok none

/-! ## The three fields -/

/-- A task has a time exactly when it says so, and without one no reminder. -/
structure Timed (d : TaskDoc) : Prop where
  hasTime_iff : d.hasTime = true ↔ d.time.isSome = true
  reminder_never : d.time = none → d.reminder = some .never

/-- Save sees to both. -/
theorem reminder_of_form {data : FormData} (h : data.time = none) :
    some data.reminder = some Reminder.never := by
  have hfalse : data.hasTime = false := by rw [← data.time_isSome, h, Option.isSome_none]
  exact congrArg some (data.reminder_never hfalse)

theorem newTask_timed (z : Zone) (uid uuid : String) (data : FormData) :
    Timed (newTask z uid uuid data) where
  hasTime_iff := iff_of_eq (congrArg (· = true) data.time_isSome.symm)
  reminder_never := reminder_of_form

theorem form_timed (data : FormData) (d : TaskDoc) : Timed ((TaskUpdate.form data).apply d) where
  hasTime_iff := iff_of_eq (congrArg (· = true) data.time_isSome.symm)
  reminder_never := reminder_of_form

/-- A new time is given only to a task that has one. -/
theorem Timed.reschedule {d : TaskDoc} (h : Timed d) (p s date : ℤ) {time : Option ℤ}
    (htime : time.isSome = true → d.hasTime = true) :
    Timed ((TaskUpdate.reschedule p s date time).apply d) := by
  cases time with
  | none => exact ⟨h.hasTime_iff, h.reminder_never⟩
  | some t => exact ⟨iff_of_true (htime rfl) rfl, fun hnone => by cases hnone⟩

theorem Timed.docAfter {z : Zone} {c : Clock} {id : String} {d : TaskDoc} (h : Timed d)
    (next : Option DateTime) : Timed (docAfter z c (.fromDS id d) d next) := by
  have hcompleted : Timed (TaskUpdate.completed.apply d) := ⟨h.hasTime_iff, h.reminder_never⟩
  cases next with
  | none => exact hcompleted
  | some t =>
      refine hcompleted.reschedule _ _ _ fun hsome => ?_
      have htime : d.hasTime = true := by
        by_contra ht
        rw [AppTask.fromDS_hasTime, if_neg ht] at hsome
        cases hsome
      exact htime

theorem Timed.doc {z : Zone} {c : Clock} {id : String} {d d' : TaskDoc}
    {next : Option DateTime} {op : TaskOp} (h : Timed d)
    (hdoc : op.doc z c (.fromDS id d) d next = some d') : Timed d' := by
  cases op with
  | edit data => exact Option.some.inj hdoc ▸ form_timed data d
  | complete => exact Option.some.inj hdoc ▸ h.docAfter next
  | delete => cases hdoc
  | deleteFromDetails => exact Option.some.inj hdoc ▸ h

/-! ## No null -/

/-- No `!` meets a null on this task: of its time, nor of its next date. -/
structure NoNull (z : Zone) (c : Clock) (task : AppTask) : Prop where
  isScheduledEvent : ∃ o, isScheduledEvent z c task = .ok o
  scheduleNotification : ∀ t, AquaFocus.isScheduledEvent z c task = .ok (some t) →
    ∃ text, scheduleNotification z task = .ok text
  findNextTime : ∃ t, findNextTime z c task = .ok t
  nextTime : ∃ next, nextTimeOf z c task = .ok next ∧ (task.repeats ≠ .never → next.isSome = true)
  eventTime : ∃ shown, eventTime z c task = .ok shown

theorem scheduleNotification_ok (z : Zone) {task : AppTask} (h : task.time.isSome = true) :
    ∃ text, scheduleNotification z task = .ok text := by
  obtain ⟨time, htime⟩ := Option.isSome_iff_exists.mp h
  exact ⟨_, by rw [scheduleNotification, htime]⟩

theorem eventTime_ok (z : Zone) (c : Clock) {task : AppTask} (h : task.WellFormed) :
    ∃ shown, eventTime z c task = .ok shown := by
  unfold eventTime
  by_cases ht : task.hasTime = true
  · obtain ⟨time, htime⟩ := Option.isSome_iff_exists.mp (h.time_isSome ht)
    rw [if_pos ht]
    by_cases hdone : task.isCompleted = true
    · simp [hdone, htime]
    · simp [hdone, htime, expiredTime, Except.map]
  · exact ⟨none, if_neg ht⟩

/-- The guards of the five functions are enough for a well-formed task. -/
theorem noNull_of_wellFormed (z : Zone) (c : Clock) {task : AppTask} (h : task.WellFormed) :
    NoNull z c task where
  isScheduledEvent := isScheduledEvent_ok z c h
  scheduleNotification t ht :=
    scheduleNotification_ok z (h.time_of_reminder (reminder_of_isScheduledEvent ht))
  findNextTime := findNextTime_ok z c h
  nextTime := by
    by_cases hr : task.repeats = .never
    · exact ⟨none, nextTimeOf_of_never hr, fun hne => absurd hr hne⟩
    · obtain ⟨t, ht⟩ := nextTimeOf_of_repeats h hr
      exact ⟨some t, ht, fun _ => rfl⟩
  eventTime := eventTime_ok z c h

variable {κ : Type} [DecidableEq κ]

/-- What holds of a stored document: its fields agree, no function meets a null
on the task either reader makes of it, and its completion throws nothing. -/
structure Dereferences (key : AppTask → κ) (w : World κ) (id : String) (d : TaskDoc) : Prop where
  timed : Timed d
  noNull : ∀ z c task, task = .fromDS id d ∨ task = .fromMap d → NoNull z c task
  completes : ∀ z c, ∃ w', perform (exec key z c) (completion z c (.fromDS id d)) w = (w', none)

/-- In a reached state every document is timed. -/
structure Stored (uid : String) (s : Account κ) : Prop extends Loaded uid s where
  timed : ∀ id d, s.world.tasks id = some d → Timed d

variable {key : AppTask → κ} {z : Zone} {uid : String} {s s' : Account κ} {a : Action}

theorem Stored.dereferences (h : Stored uid s) {id : String} {d : TaskDoc}
    (hd : s.world.tasks id = some d) : Dereferences key s.world id d := by
  have hwf : d.WellFormed := h.wellFormed id d hd
  refine ⟨h.timed id d hd, fun z c task htask => ?_, fun z c => ?_⟩
  · rcases htask with rfl | rfl
    · exact noNull_of_wellFormed z c (hwf.read id)
    · exact noNull_of_wellFormed z c (hwf.read d.id)
  · have hstored : s.world.tasks (AppTask.fromDS id d).id = some d := hd
    obtain ⟨-, w', -, hp, -⟩ := completion_spec key z c hstored hwf (hwf.read id)
    exact ⟨w', hp⟩

theorem Stored.step (h : Stored uid s) (hstep : TagList.step key z uid s a = some s') :
    Stored uid s' := by
  refine ⟨h.toLoaded.step hstep, fun id d' hd' => ?_⟩
  rcases h.toLoaded.doc_cases hstep hd' with hold | ⟨uuid, data, rfl, -⟩
    | ⟨c, d, next, op, hd, hdoc⟩ | ⟨d, hd, rfl⟩
  · exact h.timed id d' hold
  · exact newTask_timed z uid uuid data
  · exact (h.timed id d hd).doc hdoc
  · -- the bin writes the tag only
    exact ⟨(h.timed id d hd).hasTime_iff, (h.timed id d hd).reminder_never⟩

/-- **No stored task holds a null where one is dereferenced**, in any run of the
app's operations on its tasks and their tags. -/
theorem always_dereferences (key : AppTask → κ) (z : Zone) (uid : String) (showCompleted : Bool)
    (as : List Action) :
    Always (step key z uid)
      (fun s => ∀ id d, s.world.tasks id = some d → Dereferences key s.world id d)
      (start showCompleted) as := by
  intro pre hpre s hrun id d hd
  have hstep : ∀ s a s', Stored uid s → step key z uid s a = some s' → Stored uid s' :=
    fun s a s' h hstep => h.step hstep
  have hstart : Stored uid (start showCompleted : Account κ) := by
    refine ⟨loaded_start uid showCompleted, fun id d hd => ?_⟩
    cases hd
  exact (run_invariant _ hstep hstart hrun).dereferences hd

end AquaFocus.NullChecks
