/-
The five ways to delete a task: `_onDelete` of `all_list.dart`, `today_list.dart`,
`tag_list.dart` and `calendar_body.dart`, and the delete button of
`task_details.dart`.

The four handlers take the task off the list they show, delete its document and
retract its reminder, in this order, and differ in what they show afterwards. The
button of the details page, once confirmed, retracts the reminder and leaves the
page, and the document stays (`deletes_iff`).
-/
import AquaFocus.TagList
import AquaFocus.ListViews
import AquaFocus.DayLookup

set_option autoImplicit false

open Dart Calls

namespace AquaFocus.DeleteTask

variable {κ : Type} [DecidableEq κ] (key : AppTask → κ) (z : Zone) (c : Clock)

/-! ## The handlers -/

/-- What the user looks at. -/
structure View (κ : Type) where
  world : World κ
  /-- the tasks on the screen -/
  events : List AppTask
  /-- the tasks of the page behind it -/
  mainEvents : List AppTask
  /-- what the snack bar says -/
  snackBar : Option String
  /-- whether the details page is open -/
  details : Bool

/-- What the four handlers have in common; `andThen` comes before the snack bar. -/
def onDelete (event : AppTask) (andThen : View κ → View κ) (v : View κ) : View κ :=
  let v := { v with events := ListViews.remove v.events event }
  match perform (exec key z c) (deleteTask z c event) v.world with
  | (w, none) =>
      { andThen { v with world := w } with
        snackBar := some ("Task " ++ event.title ++ " deleted") }
  -- a call that throws ends the handler
  | (w, some _) => { v with world := w }

/-- `getMainPageEvents`, where `getEventList` answers what `load` does. -/
def getMainPageEvents (load : World κ → List AppTask) (v : View κ) : View κ :=
  { v with mainEvents := load v.world }

/-- `_updateTask` of the tag list. -/
def updateTask (load : World κ → List AppTask) (currTag : Tags) (v : View κ) : View κ :=
  { getMainPageEvents load v with
    events := TagList.getMatchyEvent currTag ((load v.world).filter (·.tag.isSome)) }

def ListAll.onDelete (load : World κ → List AppTask) (event : AppTask) : View κ → View κ :=
  DeleteTask.onDelete key z c event (getMainPageEvents load)

def ListToday.onDelete (load : World κ → List AppTask) (event : AppTask) : View κ → View κ :=
  DeleteTask.onDelete key z c event (getMainPageEvents load)

def ListTag.onDelete (load : World κ → List AppTask) (currTag : Tags) (event : AppTask) :
    View κ → View κ :=
  DeleteTask.onDelete key z c event (updateTask load currTag)

/-- The calendar shows the day anew, from the list it has loaded. -/
def CalendarBody.onDelete (eventList : List AppTask) (selectedDay : Option DateTime)
    (event : AppTask) : View κ → View κ :=
  DeleteTask.onDelete key z c event fun v =>
    { v with events := getEventsForDay z selectedDay eventList }

/-- The delete button of the details page, with the answer of its dialog. -/
def TaskDetails.onDelete (confirm : Option Bool) (task : AppTask) (v : View κ) : View κ :=
  if confirm.getD false then
    match perform (exec key z c) (deleteFromDetails z c task) v.world with
    | (w, none) => { v with world := w, details := false }
    | (w, some _) => { v with world := w }
  else v

/-- The ways to delete a task. -/
inductive EntryPoint (κ : Type)
  | listAll (load : World κ → List AppTask)
  | listToday (load : World κ → List AppTask)
  | listTag (load : World κ → List AppTask) (currTag : Tags)
  | calendarBody (eventList : List AppTask) (selectedDay : Option DateTime)
  | taskDetails

def EntryPoint.delete (event : AppTask) : EntryPoint κ → View κ → View κ
  | .listAll load => ListAll.onDelete key z c load event
  | .listToday load => ListToday.onDelete key z c load event
  | .listTag load currTag => ListTag.onDelete key z c load currTag event
  | .calendarBody eventList selectedDay => CalendarBody.onDelete key z c eventList selectedDay event
  | .taskDetails => TaskDetails.onDelete key z c (some true) event

/-! ## What they leave in the store -/

/-- The store is what it was, less one document. -/
def Deletes (id : String) (w w' : World κ) : Prop :=
  w'.tasks = Function.update w.tasks id none ∧ w'.money = w.money

/-- The handlers of the lists delete the document, whether or not the reminder
can be retracted. -/
theorem onDelete_deletes (event : AppTask) (andThen : View κ → View κ)
    (hworld : ∀ v, (andThen v).world = v.world) (v : View κ) :
    Deletes event.id v.world (onDelete key z c event andThen v).world := by
  have hcalls : Deletes event.id v.world
      (perform (exec key z c) (deleteTask z c event) v.world).1 := by
    rw [deleteTask, perform_cons_ok _ rfl]
    exact perform_store (removeNotification_writes z c event) _
  unfold onDelete
  rcases hp : perform (exec key z c) (deleteTask z c event) v.world with ⟨w, fault⟩
  rw [hp] at hcalls
  cases fault with
  | none => simpa only [hp, hworld] using hcalls
  | some _ => simpa only [hp] using hcalls

/-- The details page leaves the store as it is, whatever the answer. -/
theorem taskDetails_store (confirm : Option Bool) (task : AppTask) (v : View κ) :
    (TaskDetails.onDelete key z c confirm task v).world.tasks = v.world.tasks
      ∧ (TaskDetails.onDelete key z c confirm task v).world.money = v.world.money := by
  unfold TaskDetails.onDelete deleteFromDetails
  split
  · have hcalls : (perform (exec key z c) (removeNotification z c task) v.world).1.tasks
          = v.world.tasks
        ∧ (perform (exec key z c) (removeNotification z c task) v.world).1.money
          = v.world.money := perform_store (removeNotification_writes z c task) v.world
    rcases hp : perform (exec key z c) (removeNotification z c task) v.world with ⟨w, fault⟩
    rw [hp] at hcalls
    cases fault with
    | none => exact hcalls
    | some _ => exact hcalls
  · exact ⟨rfl, rfl⟩

/-- The lists and the calendar differ in what they show afterwards only. -/
theorem EntryPoint.deletes {entry : EntryPoint κ} (h : entry ≠ .taskDetails) (event : AppTask)
    (v : View κ) : Deletes event.id v.world (entry.delete key z c event v).world := by
  cases entry with
  | listAll load => exact onDelete_deletes key z c event (getMainPageEvents load) (fun _ => rfl) v
  | listToday load => exact onDelete_deletes key z c event (getMainPageEvents load) (fun _ => rfl) v
  | listTag load currTag =>
      exact onDelete_deletes key z c event (updateTask load currTag) (fun _ => rfl) v
  | calendarBody eventList selectedDay =>
      apply onDelete_deletes
      intro v
      rfl
  | taskDetails => exact absurd rfl h

/-- **What deleting a stored task does**: its document goes, and nothing else
does, except from the details page. -/
theorem deletes_iff (entry : EntryPoint κ) (event : AppTask) (v : View κ)
    (h : (v.world.tasks event.id).isSome) :
    Deletes event.id v.world (entry.delete key z c event v).world
      ↔ entry ≠ .taskDetails := by
  constructor
  · rintro ⟨htasks, -⟩ rfl
    -- the document was there, and the details page has left it
    have hkept : (EntryPoint.taskDetails.delete key z c event v).world.tasks = v.world.tasks :=
      (taskDetails_store key z c (some true) event v).1
    rw [hkept] at htasks
    have hgone : v.world.tasks event.id = none :=
      (congrFun htasks event.id).trans (Function.update_self ..)
    rw [hgone] at h
    cases h
  · exact fun hentry => EntryPoint.deletes key z c hentry event v

/-- The details of the one task of a store. -/
def oneTaskView : View String where
  world := oneTask .never
  events := []
  mainEvents := []
  snackBar := none
  details := true

/-- The page is left, and the task is still there. -/
theorem not_deletes :
    ¬ Deletes "doc" oneTaskView.world
        (EntryPoint.delete AppTask.id utc (noonOfJune 1) (.fromDS "doc" (swim .never))
          .taskDetails oneTaskView).world
      ∧ (EntryPoint.delete AppTask.id utc (noonOfJune 1) (.fromDS "doc" (swim .never))
          .taskDetails oneTaskView).details = false := by
  refine ⟨fun h => ?_, rfl⟩
  have hgone := congrFun h.1 "doc"
  exact absurd (congrArg Option.isSome hgone) (by decide)

theorem deletes_iff_oneTaskView :
    Deletes "doc" oneTaskView.world
        (EntryPoint.delete AppTask.id utc (noonOfJune 1) (.fromDS "doc" (swim .never))
          (.listAll fun _ => []) oneTaskView).world
      ↔ (EntryPoint.listAll fun _ => [] : EntryPoint String) ≠ .taskDetails :=
  deletes_iff AppTask.id utc (noonOfJune 1) _ (.fromDS "doc" (swim .never)) oneTaskView rfl

end AquaFocus.DeleteTask
