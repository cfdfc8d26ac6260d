/-
What the app's handlers act on, and the calls they are made of.

A handler of the source is a sequence of awaited calls: to the task store
(`taskDBS`), to the account's document (`DatabaseServices`), to the notification
plugin, and to the widgets. Each is a `Call`, a handler is a list of them
(`Lib/Calls.lean`), and `exec` is what one call does to a `World`: the task
documents, the balance, the pending notifications, and the two values a handler
keeps between its calls.

The plugin addresses a notification by an integer, the task's `hashCode`. The
address is a parameter here, `key`, of any type: which tasks share an address is
a matter of its own.
-/
import AquaFocus.TaskUtils
import AquaFocus.Lib.Calls
import Mathlib.Logic.Function.Basic

set_option autoImplicit false

open Dart Calls

namespace AquaFocus

structure World (κ : Type) where
  tasks : String → Option TaskDoc
  money : ℤ
  /-- the balance the home screen shows -/
  fishMoney : ℤ
  /-- what the plugin has pending at each address -/
  pending : κ → Option DateTime
  /-- the handler's `event`, from `getSingle` -/
  event : Option AppTask
  /-- the handler's `currMoney`, from `getMoney` -/
  currMoney : ℤ

/-- A new account on a device with nothing pending. -/
def World.empty {κ : Type} : World κ where
  tasks _ := none
  money := 0
  fishMoney := 0
  pending _ := none
  event := none
  currMoney := 0

inductive Call
  | create (id : String) (data : TaskDoc)
  | updateData (id : String) (update : TaskUpdate)
  | getSingle (id : String)
  | removeItem (id : String)
  | clearTasks
  | getMoney
  | addMoney (amt : ℤ)
  | cancel (task : AppTask)
  | scheduleNotification (task : AppTask) (scheduledTime : DateTime)
  /-- `addNotification(event!)` -/
  | addNotification
  | cancelAll
  | showDialog (moneyEarned : Option ℤ)
  | updateHomeMoney (moneyEarned : ℤ)
  | throws (fault : Fault)

variable {κ : Type} [DecidableEq κ] (key : AppTask → κ) (z : Zone) (c : Clock)

/-! ## The calls -/

def World.schedule (w : World κ) (task : AppTask) (scheduledTime : DateTime) : World κ :=
  { w with pending := Function.update w.pending (key task) (some scheduledTime) }

def World.cancel (w : World κ) (task : AppTask) : World κ :=
  { w with pending := Function.update w.pending (key task) none }

/-- One call. An update of a document that is not there throws, and so does the
`!` of `event!` when there was nothing to read. -/
def exec : Call → World κ → Except Fault (World κ)
  | .create id data, w => .ok { w with tasks := Function.update w.tasks id (some data) }
  | .updateData id update, w =>
      match w.tasks id with
      | none => .error .notFound
      | some d => .ok { w with tasks := Function.update w.tasks id (some (update.apply d)) }
  | .getSingle id, w => .ok { w with event := (w.tasks id).map (.fromDS id) }
  | .removeItem id, w => .ok { w with tasks := Function.update w.tasks id none }
  | .clearTasks, w => .ok { w with tasks := fun _ => none }
  | .getMoney, w => .ok { w with currMoney := w.money }
  | .addMoney amt, w => .ok { w with money := w.money + amt }
  | .cancel task, w => .ok (w.cancel key task)
  | .scheduleNotification task scheduledTime, w => .ok (w.schedule key task scheduledTime)
  | .addNotification, w =>
      match w.event with
      | none => .error .nullCheck
      | some event =>
          match isScheduledEvent z c event with
          | .error fault => .error fault
          | .ok none => .ok w
          | .ok (some scheduledTime) => .ok (w.schedule key event scheduledTime)
  | .cancelAll, w => .ok { w with pending := fun _ => none }
  | .showDialog _, w => .ok w
  | .updateHomeMoney moneyEarned, w => .ok { w with fishMoney := moneyEarned + w.currMoney }
  | .throws fault, _ => .error fault

/-- The addresses a call gives the plugin. -/
def addressed : Call → World κ → List κ
  | .cancel task, _ => [key task]
  | .scheduleNotification task _, _ => [key task]
  | .addNotification, w =>
      match w.event with
      | none => []
      | some event =>
          match isScheduledEvent z c event with
          | .ok (some _) => [key event]
          | _ => []
  | _, _ => []

/-- `removeNotification`. -/
def removeNotification (task : AppTask) : List Call :=
  match isScheduledEvent z c task with
  | .error fault => [.throws fault]
  | .ok none => []
  | .ok (some _) => [.cancel task]

/-- `addNotification`, of a task already at hand. -/
def addNotification (event : AppTask) : List Call :=
  match isScheduledEvent z c event with
  | .error fault => [.throws fault]
  | .ok none => []
  | .ok (some scheduledTime) => [.scheduleNotification event scheduledTime]

/-- What `removeNotification` leaves pending. -/
def retracted (task : AppTask) (pending : κ → Option DateTime) : κ → Option DateTime :=
  match isScheduledEvent z c task with
  | .ok (some _) => Function.update pending (key task) none
  | _ => pending

/-- What `addNotification` leaves pending. -/
def announced (event : AppTask) (pending : κ → Option DateTime) : κ → Option DateTime :=
  match isScheduledEvent z c event with
  | .ok (some scheduledTime) => Function.update pending (key event) (some scheduledTime)
  | _ => pending

/-- A task has a reminder that is still to come. -/
def ReminderToCome (task : AppTask) : Prop := ∃ t, isScheduledEvent z c task = .ok (some t)

/-! ## What a call leaves alone -/

/-- The calls that write to the account's documents. -/
def Call.writes : Call → Bool
  | .create .. | .updateData .. | .removeItem _ | .clearTasks | .addMoney _ => true
  | _ => false

variable {key z c}

/-- Whatever the reminder test says, `addNotification` changes only what is pending. -/
theorem pending_of_addNotification {w w' : World κ}
    (h : exec key z c .addNotification w = .ok w') :
    ∃ pending, w' = { w with pending := pending } := by
  simp only [exec] at h
  split at h
  · cases h
  · split at h <;> cases h <;> exact ⟨_, rfl⟩

/-- A call that writes nothing leaves the documents and the balance. -/
theorem exec_store {call : Call} {w w' : World κ} (hw : call.writes = false)
    (h : exec key z c call w = .ok w') : w'.tasks = w.tasks ∧ w'.money = w.money := by
  cases call with
  | create | updateData | removeItem | clearTasks | addMoney =>
      exact absurd hw (by simp [Call.writes])
  | throws => exact absurd h (by simp [exec])
  | addNotification =>
      obtain ⟨pending, rfl⟩ := pending_of_addNotification h
      exact ⟨rfl, rfl⟩
  | _ =>
      simp only [exec, Except.ok.injEq] at h
      subst h
      exact ⟨rfl, rfl⟩

/-- Nor does a program of such calls touch them, also where it throws. -/
theorem perform_store {calls : List Call} (hw : ∀ call ∈ calls, call.writes = false)
    (w : World κ) : (perform (exec key z c) calls w).1.tasks = w.tasks
      ∧ (perform (exec key z c) calls w).1.money = w.money := by
  have hstore : ∀ call ∈ calls, ∀ s s' : World κ, exec key z c call s = .ok s' →
      s'.tasks = s.tasks ∧ s'.money = s.money :=
    fun call hcall _ _ hexec => exec_store (hw call hcall) hexec
  exact ⟨view_perform World.tasks (fun call hcall s s' h => (hstore call hcall s s' h).1) w,
    view_perform World.money (fun call hcall s s' h => (hstore call hcall s s' h).2) w⟩

/-- What a call can do to the document `id`: nothing, write it, or remove it. -/
theorem exec_document {call : Call} {w w' : World κ} (h : exec key z c call w = .ok w')
    (id : String) :
    w'.tasks id = w.tasks id ∨ w'.tasks id = none
      ∨ (∃ data, call = .create id data ∧ w'.tasks id = some data)
      ∨ ∃ update d, call = .updateData id update ∧ w.tasks id = some d
          ∧ w'.tasks id = some (update.apply d) := by
  by_cases hw : call.writes = false
  · rw [(exec_store hw h).1]
    exact .inl rfl
  · cases call with
    | create docId data =>
        cases h
        by_cases hid : id = docId
        · subst hid
          exact .inr (.inr (.inl ⟨data, rfl, Function.update_self ..⟩))
        · exact .inl (Function.update_of_ne hid ..)
    | updateData docId update =>
        rw [exec] at h
        cases hd : w.tasks docId with
        | none =>
            rw [hd] at h
            cases h
        | some d =>
            rw [hd] at h
            cases h
            by_cases hid : id = docId
            · subst hid
              exact .inr (.inr (.inr ⟨update, d, rfl, hd, Function.update_self ..⟩))
            · exact .inl (Function.update_of_ne hid ..)
    | removeItem docId =>
        cases h
        by_cases hid : id = docId
        · subst hid
          exact .inr (.inl (Function.update_self ..))
        · exact .inl (Function.update_of_ne hid ..)
    | clearTasks =>
        cases h
        exact .inr (.inl rfl)
    | addMoney amt =>
        cases h
        exact .inl rfl
    | _ => exact absurd rfl hw

/-- What a call can do to the handler's `event`. -/
theorem exec_event {call : Call} {w w' : World κ} (h : exec key z c call w = .ok w') :
    w'.event = w.event ∨ ∃ id, call = .getSingle id ∧ w'.event = (w.tasks id).map (.fromDS id) := by
  cases call with
  | getSingle id =>
      cases h
      exact .inr ⟨id, rfl, rfl⟩
  | updateData =>
      simp only [exec] at h
      split at h <;> cases h
      exact .inl rfl
  | addNotification =>
      obtain ⟨pending, rfl⟩ := pending_of_addNotification h
      exact .inl rfl
  | throws => cases h
  | _ =>
      cases h
      exact .inl rfl

/-- An update of a stored document. -/
theorem exec_updateData {id : String} {w : World κ} {d : TaskDoc} (update : TaskUpdate)
    (hd : w.tasks id = some d) :
    exec key z c (.updateData id update) w
      = .ok { w with tasks := Function.update w.tasks id (some (update.apply d)) } := by
  rw [exec, hd]

/-! ## Reminders of well-formed tasks

The reminder test of a well-formed task does not throw, so its three users do
not either, and change nothing but what is pending. -/

section Reminders

variable {task : AppTask} (h : task.WellFormed)

include h

theorem perform_removeNotification (w : World κ) :
    perform (exec key z c) (removeNotification z c task) w
      = ({ w with pending := retracted key z c task w.pending }, none) := by
  obtain ⟨o, ho⟩ := isScheduledEvent_ok z c h
  unfold removeNotification retracted
  rw [ho]
  cases o with
  | none => rfl
  | some t => rfl

theorem perform_addNotification (w : World κ) :
    perform (exec key z c) (addNotification z c task) w
      = ({ w with pending := announced key z c task w.pending }, none) := by
  obtain ⟨o, ho⟩ := isScheduledEvent_ok z c h
  unfold addNotification announced
  rw [ho]
  cases o with
  | none => rfl
  | some t => rfl

theorem exec_addNotification {w : World κ} (he : w.event = some task) :
    exec key z c .addNotification w
      = .ok { w with pending := announced key z c task w.pending } := by
  obtain ⟨o, ho⟩ := isScheduledEvent_ok z c h
  obtain ⟨tasks, money, fishMoney, pending, event, currMoney⟩ := w
  obtain rfl : event = some task := he
  unfold announced
  simp only [exec, ho]
  cases o with
  | none => rfl
  | some t => rfl

end Reminders

section

variable {task : AppTask} (pending : κ → Option DateTime)

theorem retracted_of_toCome (h : ReminderToCome z c task) :
    retracted key z c task pending = Function.update pending (key task) none := by
  obtain ⟨t, ht⟩ := h
  rw [retracted, ht]

theorem retracted_of_not (h : ¬ ReminderToCome z c task) :
    retracted key z c task pending = pending := by
  unfold retracted
  split
  · next t ht => exact absurd ⟨t, ht⟩ h
  · rfl

theorem announced_of_toCome (key : AppTask → κ) (h : ReminderToCome z c task) :
    ∃ t, announced key z c task pending = Function.update pending (key task) (some t) := by
  obtain ⟨t, ht⟩ := h
  exact ⟨t, by rw [announced, ht]⟩

theorem announced_of_not (h : ¬ ReminderToCome z c task) :
    announced key z c task pending = pending := by
  unfold announced
  split
  · next t ht => exact absurd ⟨t, ht⟩ h
  · rfl

/-- Both touch the task's own address. -/
theorem retracted_of_ne {x : κ} (hx : x ≠ key task) :
    retracted key z c task pending x = pending x := by
  by_cases h : ReminderToCome z c task
  · rw [retracted_of_toCome pending h, Function.update_of_ne hx]
  · rw [retracted_of_not pending h]

theorem announced_of_ne {x : κ} (hx : x ≠ key task) :
    announced key z c task pending x = pending x := by
  by_cases h : ReminderToCome z c task
  · obtain ⟨t, ht⟩ := announced_of_toCome pending key h
    rw [ht, Function.update_of_ne hx]
  · rw [announced_of_not pending h]

theorem retracted_le {x : κ} {t : DateTime} (h : retracted key z c task pending x = some t) :
    pending x = some t := by
  by_cases hx : x = key task
  · by_cases hc : ReminderToCome z c task
    · rw [retracted_of_toCome pending hc, hx, Function.update_self] at h
      exact absurd h (by simp)
    · rwa [retracted_of_not pending hc] at h
  · rwa [retracted_of_ne pending hx] at h

/-- A task's reminder is retracted only while it is still to come. -/
theorem retracted_eq_none_iff :
    retracted key z c task pending (key task) = none
      ↔ pending (key task) = none ∨ ReminderToCome z c task := by
  by_cases h : ReminderToCome z c task
  · rw [retracted_of_toCome pending h]
    exact iff_of_true (Function.update_self ..) (.inr h)
  · rw [retracted_of_not pending h]
    exact ⟨.inl, fun hor => hor.resolve_right h⟩

end

/-- A task without a reminder has none to come. -/
theorem not_toCome_of_never {task : AppTask} (h : task.reminder = some .never) :
    ¬ ReminderToCome z c task := by
  rintro ⟨t, ht⟩
  exact reminder_of_isScheduledEvent ht h

/-! ## The calls about a reminder -/

theorem mem_removeNotification {task : AppTask} {call : Call}
    (h : call ∈ removeNotification z c task) :
    call = .cancel task ∨ ∃ fault, call = .throws fault := by
  unfold removeNotification at h
  split at h
  · next fault _ => exact .inr ⟨fault, List.mem_singleton.mp h⟩
  · exact absurd h List.not_mem_nil
  · exact .inl (List.mem_singleton.mp h)

theorem mem_addNotification {event : AppTask} {call : Call}
    (h : call ∈ addNotification z c event) :
    (∃ t, call = .scheduleNotification event t) ∨ ∃ fault, call = .throws fault := by
  unfold addNotification at h
  split at h
  · next fault _ => exact .inr ⟨fault, List.mem_singleton.mp h⟩
  · exact absurd h List.not_mem_nil
  · next t _ => exact .inl ⟨t, List.mem_singleton.mp h⟩

theorem addNotification_writes (z : Zone) (c : Clock) (event : AppTask) :
    ∀ call ∈ addNotification z c event, call.writes = false := by
  intro call hcall
  rcases mem_addNotification hcall with ⟨t, rfl⟩ | ⟨fault, rfl⟩
  · rfl
  · rfl

theorem removeNotification_writes (z : Zone) (c : Clock) (task : AppTask) :
    ∀ call ∈ removeNotification z c task, call.writes = false := by
  intro call hcall
  rcases mem_removeNotification hcall with rfl | ⟨fault, rfl⟩
  · rfl
  · rfl

end AquaFocus
