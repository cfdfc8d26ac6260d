/-
`lib/screens/Tasks/add_task.dart`: the form, and what its Save button does.

Save builds a map from the form's values (`TaskForm.toData`), and then either
creates a document from it or updates the edited task's. A new task gets two
ids: the one Save puts into the map, and the one the store gives the document.
Both are arguments here.
-/
import AquaFocus.World

set_option autoImplicit false

open Dart Calls

namespace AquaFocus

/-- The values of a form that passed its validators, which ask for a title and a
date. -/
structure TaskForm where
  title : String
  description : Option String
  date : DateTime
  hasTime : Bool
  time : Option DateTime
  repeats : Repeat
  reminder : Reminder
  tag : Option String

/-- The map Save builds. A time that was switched on and then cleared is cast to
a `DateTime` all the same, and the cast throws. -/
def TaskForm.toData (form : TaskForm) : Except Fault FormData :=
  if form.hasTime then
    match form.time with
    -- `data['time'] as DateTime`
    | none => .error .typeError
    | some time => .ok {
        title := form.title
        description := form.description
        date := form.date.millisecondsSinceEpoch
        hasTime := true
        time := some time.millisecondsSinceEpoch
        repeats := form.repeats
        reminder := form.reminder
        tag := form.tag
        time_isSome := rfl
        reminder_never := fun h => absurd h (by decide) }
  else .ok {
      title := form.title
      description := form.description
      date := form.date.millisecondsSinceEpoch
      hasTime := false
      time := none
      repeats := form.repeats
      reminder := .never
      tag := form.tag
      time_isSome := rfl
      reminder_never := fun _ => rfl }

/-- A form with its date and repeat filled in, and no time. -/
def FormData.untimed (date : ℤ) (repeats : Repeat) : FormData where
  title := "Swim"
  description := none
  date := date
  hasTime := false
  time := none
  repeats := repeats
  reminder := .never
  tag := none
  time_isSome := rfl
  reminder_never _ := rfl

/-- A form with a time, and a reminder for it. -/
def FormData.timed (date time : ℤ) (repeats : Repeat) (reminder : Reminder) : FormData where
  title := "Swim"
  description := none
  date := date
  hasTime := true
  time := some time
  repeats := repeats
  reminder := reminder
  tag := none
  time_isSome := rfl
  reminder_never h := absurd h (by decide)

variable (z : Zone) (c : Clock)

/-- The map a new task is stored as. -/
def newTask (uid uuid : String) (data : FormData) : TaskDoc where
  title := data.title
  id := uuid
  description := data.description
  date := data.date
  userId := some uid
  isCompleted := false
  hasTime := data.hasTime
  time := data.time
  repeats := data.repeats
  reminder := some data.reminder
  tag := data.tag
  streak := 0
  prevCompletionTime := (DateTime.ofDate z 1970 1 1).millisecondsSinceEpoch

/-- Save, for a new task: the reminder is announced from the map itself. -/
def createTask (docId : String) (data : TaskDoc) : List Call :=
  .create docId data :: addNotification z c (.fromMap data)

/-- Save, for an edited task: the reminder is announced from the stored document. -/
def editTask (task : AppTask) (data : FormData) : List Call :=
  removeNotification z c task
    ++ [.updateData task.id (.form data), .getSingle task.id, .addNotification]

/-- Save. -/
def save (uid uuid docId : String) (task : Option AppTask) (form : TaskForm) : List Call :=
  match form.toData with
  | .error fault => [.throws fault]
  | .ok data =>
      match task with
      | none => createTask z c docId (newTask z uid uuid data)
      | some task => editTask z c task data

/-! ## A task to try things on

In UTC, on 1 June 2022. -/

def utc : Zone := .fixed .utc

/-- The clock variables at noon on day `n` of June 2022. -/
def noonOfJune (n : ℤ) : Clock := .read utc ⟨days (19143 + n) + 12 * microsecondsPerHour, false⟩

/-- An untimed task dated 1 June, as Save stores it. -/
def swim (repeats : Repeat) : TaskDoc :=
  newTask utc "uid" "uuid" (.untimed 1654041600000 repeats)

/-- A task at two in the afternoon, with a reminder on time. -/
def swimAtTwo (repeats : Repeat) : TaskDoc :=
  newTask utc "uid" "uuid" (.timed 1654041600000 1654092000000 repeats .ontime)

example : (noonOfJune 1).nowDate = .ofMillis (swim .never).date := by decide

/-! ## What Save does -/

theorem newTask_wellFormed (uid uuid : String) (data : FormData) :
    (newTask z uid uuid data).WellFormed := by
  refine ⟨fun ht => ?_, fun ht => ?_, le_refl 0⟩
  · exact data.time_isSome.trans ht
  · exact congrArg some (data.reminder_never ht)

variable {z c} {κ : Type} [DecidableEq κ] {w : World κ}

/-- Save stores a new task and announces it. -/
theorem createTask_spec (key : AppTask → κ) (docId : String) {data : TaskDoc}
    (hd : data.WellFormed) :
    perform (exec key z c) (createTask z c docId data) w
      = ({ w with
            tasks := Function.update w.tasks docId (some data)
            pending := announced key z c (.fromMap data) w.pending }, none) := by
  have hmap : (AppTask.fromMap data).WellFormed := hd.read data.id
  unfold createTask
  rw [perform_cons_ok _ rfl, perform_addNotification hmap]

/-- Save replaces an edited task's reminder by that of the new data. -/
theorem editTask_spec (key : AppTask → κ) {task : AppTask} {d : TaskDoc}
    (hw : w.tasks task.id = some d) (hd : d.WellFormed) (ht : task.WellFormed) (data : FormData) :
    ∃ w', perform (exec key z c) (editTask z c task data) w = (w', none)
      ∧ w'.tasks = Function.update w.tasks task.id (some ((TaskUpdate.form data).apply d))
      ∧ w'.money = w.money
      ∧ w'.pending = announced key z c (.fromDS task.id ((TaskUpdate.form data).apply d))
          (retracted key z c task w.pending) := by
  have hkept : ({ w with pending := retracted key z c task w.pending } : World κ).tasks task.id
      = some d := hw
  have hds : (AppTask.fromDS task.id ((TaskUpdate.form data).apply d)).WellFormed :=
    (hd.form data).read task.id
  unfold editTask
  rw [perform_append _ (perform_removeNotification ht w),
    perform_cons_ok _ (exec_updateData _ hkept), perform_cons_ok _ rfl,
    perform_cons_ok _ (exec_addNotification hds (by simp)),
    perform_nil]
  exact ⟨_, rfl, rfl, rfl, rfl⟩

theorem swim_wellFormed (repeats : Repeat) : (swim repeats).WellFormed :=
  newTask_wellFormed utc "uid" "uuid" _

end AquaFocus
