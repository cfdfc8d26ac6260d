/-
`lib/model/app_task.dart`: tasks and the documents they are stored as.

A stored document (`TaskDoc`) holds instants as milliseconds; `AppTask` holds
them as `DateTime`s. The two readers of the source are kept apart, because they
differ in one field: `fromMap` takes the task's id from the map, `fromDS` takes
it from the document.
-/
import AquaFocus.Lib.DateTime

set_option autoImplicit false

open Dart

namespace AquaFocus

/-- The values of the form's repeat field. -/
inductive Repeat
  | never | daily | weekdays | weekends | weekly | monthly
deriving DecidableEq, Repr

/-- The values of the form's reminder field; `m5` is `'5min'`, and so on. -/
inductive Reminder
  | never | ontime | m5 | m10 | m15
deriving DecidableEq, Repr

/-- A document of the collection `users/<uid>/tasks`. -/
structure TaskDoc where
  title : String
  id : String
  description : Option String
  date : ℤ
  userId : Option String
  isCompleted : Bool
  hasTime : Bool
  time : Option ℤ
  repeats : Repeat
  reminder : Option Reminder
  tag : Option String
  streak : ℤ
  prevCompletionTime : ℤ
deriving DecidableEq, Repr

structure AppTask where
  title : String
  id : String
  description : Option String
  date : DateTime
  userId : Option String
  isCompleted : Bool
  hasTime : Bool
  time : Option DateTime
  repeats : Repeat
  reminder : Option Reminder
  tag : Option String
  streak : ℤ
  prevCompletionTime : DateTime
deriving DecidableEq, Repr

namespace AppTask

/-- The fields both readers fill alike. -/
def read (id : String) (data : TaskDoc) : AppTask where
  title := data.title
  id := id
  description := data.description
  date := .ofMillis data.date
  userId := data.userId
  isCompleted := data.isCompleted
  hasTime := data.hasTime
  time := data.time.map .ofMillis
  repeats := data.repeats
  reminder := data.reminder
  tag := data.tag
  streak := data.streak
  prevCompletionTime := .ofMillis data.prevCompletionTime

/-- `AppTask.fromMap`: the id is the map's own. -/
def fromMap (map : TaskDoc) : AppTask := read map.id map

/-- `AppTask.fromDS`: the id is the document's. -/
def fromDS (id : String) (data : TaskDoc) : AppTask := read id data

/-- `AppTask.operator ==`: all fields but the user's id. -/
def beq (task o : AppTask) : Bool :=
  o.title = task.title && o.id = task.id && o.description = task.description
    && o.date = task.date && o.hasTime = task.hasTime && o.time = task.time
    && o.repeats = task.repeats && o.reminder = task.reminder && o.isCompleted = task.isCompleted
    && o.tag = task.tag && o.streak = task.streak
    && o.prevCompletionTime = task.prevCompletionTime

theorem beq_self (task : AppTask) : task.beq task = true := by
  simp only [beq, decide_true, Bool.and_self]

theorem beq_of_id_ne {task o : AppTask} (h : task.id ≠ o.id) : task.beq o = false := by
  have hid : decide (o.id = task.id) = false := decide_eq_false (Ne.symm h)
  simp only [beq, hid, Bool.and_false, Bool.false_and]

/-- `AppTask.hashCode`, over the platform's `hashCode` of a nullable string. -/
def hashCode (hash : Option String → BitVec 64) (task : AppTask) : BitVec 64 :=
  hash (some task.id) ^^^ hash task.userId

section

variable (id : String) (data : TaskDoc)

@[simp] theorem fromDS_id : (fromDS id data).id = id := rfl
@[simp] theorem fromDS_hasTime : (fromDS id data).hasTime = data.hasTime := rfl
@[simp] theorem fromDS_repeats : (fromDS id data).repeats = data.repeats := rfl
@[simp] theorem fromDS_reminder : (fromDS id data).reminder = data.reminder := rfl
@[simp] theorem fromDS_streak : (fromDS id data).streak = data.streak := rfl
@[simp] theorem fromDS_time : (fromDS id data).time = data.time.map .ofMillis := rfl
@[simp] theorem fromDS_date : (fromDS id data).date = .ofMillis data.date := rfl
@[simp] theorem fromDS_isCompleted : (fromDS id data).isCompleted = data.isCompleted := rfl
@[simp] theorem fromDS_tag : (fromDS id data).tag = data.tag := rfl
@[simp] theorem fromDS_userId : (fromDS id data).userId = data.userId := rfl
@[simp] theorem fromDS_prevCompletionTime :
    (fromDS id data).prevCompletionTime = .ofMillis data.prevCompletionTime := rfl

end

end AppTask

/-! ## What is known of a stored document -/

/-- What holds of every document the app writes: a task with a time has one, a
task without has no reminder, and streaks count up from zero. -/
structure TaskDoc.WellFormed (d : TaskDoc) : Prop where
  time_isSome : d.hasTime = true → d.time.isSome
  reminder_never : d.hasTime = false → d.reminder = some .never
  streak_nonneg : 0 ≤ d.streak

/-- The same of a task read from one. -/
structure AppTask.WellFormed (task : AppTask) : Prop where
  time_isSome : task.hasTime = true → task.time.isSome
  reminder_never : task.hasTime = false → task.reminder = some .never
  streak_nonneg : 0 ≤ task.streak

theorem AppTask.WellFormed.time_of_reminder {task : AppTask} (h : task.WellFormed)
    (hr : task.reminder ≠ some .never) : task.time.isSome := by
  by_cases ht : task.hasTime = true
  · exact h.time_isSome ht
  · exact absurd (h.reminder_never (by simpa using ht)) hr

theorem TaskDoc.WellFormed.read {d : TaskDoc} (h : d.WellFormed) (id : String) :
    (AppTask.read id d).WellFormed := by
  refine ⟨fun ht => ?_, h.reminder_never, h.streak_nonneg⟩
  have hd : d.time.isSome := h.time_isSome ht
  simpa [AppTask.read] using hd

/-- The map the form's Save writes. The two rules Save enforces are its proofs:
it fills `time` exactly when `hasTime` is set, and a task without a time has the
reminder `'never'`. -/
structure FormData where
  title : String
  description : Option String
  date : ℤ
  hasTime : Bool
  time : Option ℤ
  repeats : Repeat
  reminder : Reminder
  tag : Option String
  time_isSome : time.isSome = hasTime
  reminder_never : hasTime = false → reminder = .never

/-- The writes that change a stored document, `updateData` with each map the
source passes to it. -/
inductive TaskUpdate
  | completed
  | reschedule (prevCompletionTime streak date : ℤ) (time : Option ℤ)
  | form (data : FormData)

/-- The fields a write sets; it keeps the others. -/
def TaskUpdate.apply : TaskUpdate → TaskDoc → TaskDoc
  | .completed, d => { d with isCompleted := true }
  | .reschedule prevCompletionTime streak date time, d =>
      { d with
        prevCompletionTime := prevCompletionTime
        streak := streak
        date := date
        time := time <|> d.time
        isCompleted := false }
  | .form data, d =>
      { d with
        title := data.title
        description := data.description
        date := data.date
        hasTime := data.hasTime
        time := data.time
        repeats := data.repeats
        reminder := some data.reminder
        tag := data.tag }

namespace TaskDoc.WellFormed

variable {d : TaskDoc} (h : d.WellFormed)

include h

theorem completed : (TaskUpdate.completed.apply d).WellFormed :=
  ⟨h.time_isSome, h.reminder_never, h.streak_nonneg⟩

theorem reschedule (p : ℤ) {s : ℤ} (hs : 0 ≤ s) (date : ℤ) (time : Option ℤ) :
    ((TaskUpdate.reschedule p s date time).apply d).WellFormed := by
  refine ⟨fun ht => ?_, h.reminder_never, hs⟩
  have hd : d.time.isSome := h.time_isSome ht
  cases time with
  | none => exact hd
  | some _ => rfl

theorem form (data : FormData) : ((TaskUpdate.form data).apply d).WellFormed := by
  refine ⟨fun ht => ?_, fun ht => ?_, h.streak_nonneg⟩
  · have ht' : data.hasTime = true := ht
    exact data.time_isSome.trans ht'
  · exact congrArg some (data.reminder_never ht)

end TaskDoc.WellFormed

end AquaFocus
