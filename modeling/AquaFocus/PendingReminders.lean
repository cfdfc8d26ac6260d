/-
What is pending, while it is still to come.

`Reminders.lean` follows a notification to the end of its task. This file is
about the time before that: a notification whose time has not come yet is the
reminder of the task as it is stored now, however often the task was edited or
moved, and every open task whose reminder is still to come has it pending. Each
operation retracts the old reminder before it announces the new one, and
`removeNotification` retracts exactly those that are still to come, so nothing
out of date is left ahead (`retracted_past`).

Three events can spoil this: an erasure, which retracts nothing, the delete
button of the details page, which retracts without deleting, and the making of a
task, which announces it under the id of its map (`TaskOps.lean`). `exact_iff`
says when they do, and that nothing else does.

The code's only sense of the present is the variable `now`, which an app reads
once. So the moment of the phone is here what that variable holds, and time
passes when the app is started again.
-/
import AquaFocus.Reminders

set_option autoImplicit false

open Dart Calls Runs

namespace AquaFocus.PendingReminders

open Reminders

variable (z : Zone)

/-! ## The machine -/

/-- The steps of `Reminders.Event`, but that a new task has two ids: its
document's, and the one Save puts into its map. -/
inductive Event
  | create (docId uuid uid : String) (data : FormData)
  | operate (docId : String) (op : TaskOp)
  | clearRecord
  | tick (elapsed : ℕ)

def step (s : Phone) : Event → Option Phone
  | .create docId uuid uid data =>
      if (s.world.tasks docId).isSome then none
      else some { s with
        world := (perform (exec AppTask.id z (s.clock z))
          (createTask z (s.clock z) docId (newTask z uid uuid data)) s.world).1 }
  | .operate docId op => Reminders.step z s (.operate docId op)
  | .clearRecord => Reminders.step z s .clearRecord
  | .tick elapsed => Reminders.step z s (.tick elapsed)

/-! ## Reminders -/

/-- When a task's reminder goes off, whether that is still to come or not. -/
def alarm (task : AppTask) : Option DateTime :=
  if task.reminder ≠ some .never then
    task.time.map fun time =>
      (DateTime.ofFields z (task.date.year z) (task.date.month z) (task.date.day z)
        (time.hour z) (time.minute z)).subtract (Reminder.lead task.reminder)
  else none

/-- `isScheduledEvent` is the alarm, as long as it is to come. -/
theorem isScheduledEvent_eq_some_iff {c : Clock} {task : AppTask} {t : DateTime} :
    isScheduledEvent z c task = .ok (some t) ↔ alarm z task = some t ∧ t.isAfter c.now = true := by
  unfold isScheduledEvent alarm
  by_cases hr : task.reminder ≠ some .never
  · rw [if_pos hr, if_pos hr]
    cases task.time with
    | none => simp
    | some time =>
        simp only [Option.map_some, Except.ok.injEq, Option.some.injEq]
        constructor
        · intro h
          obtain ⟨hafter, ht⟩ := Option.ite_none_right_eq_some.mp h
          obtain rfl := Option.some.inj ht
          exact ⟨rfl, hafter⟩
        · rintro ⟨rfl, hafter⟩
          exact if_pos hafter
  · rw [if_neg hr, if_neg hr]
    simp

/-- A time that the variable `now` has not reached. -/
def ToCome (s : Phone) (t : DateTime) : Prop := s.now < t.microsecondsSinceEpoch

/-- Nothing pending is out of date before its time, and nothing is missing. -/
structure Exact (s : Phone) : Prop where
  current : ∀ id t, s.world.pending id = some t → ToCome s t →
    ∃ d, s.world.tasks id = some d ∧ alarm z (.fromDS id d) = some t
  pending : ∀ id d t, s.world.tasks id = some d → d.isCompleted = false →
    alarm z (.fromDS id d) = some t → ToCome s t → s.world.pending id = some t

/-- A task that is made with a reminder to come goes by one id, an erasure comes
when nothing is ahead, and the details page retracts the reminders of completed
tasks only, or of tasks whose reminder is past. -/
def Guard (s : Phone) : Event → Prop
  | .create docId uuid uid data =>
      ReminderToCome z (s.clock z) (.fromMap (newTask z uid uuid data)) → uuid = docId
  | .clearRecord => ∀ id t, s.world.pending id = some t → ¬ ToCome s t
  | .operate id .deleteFromDetails => ∀ d, s.world.tasks id = some d →
      ¬ ReminderToCome z (s.clock z) (.fromDS id d) ∨ d.isCompleted = true
  | _ => True

variable {z} {s s' : Phone} {id : String} {d : TaskDoc} {t : DateTime}

/-- On the phone, the reminder test compares the alarm with the present. -/
theorem scheduled_iff {task : AppTask} :
    isScheduledEvent z (s.clock z) task = .ok (some t) ↔ alarm z task = some t ∧ ToCome s t := by
  rw [isScheduledEvent_eq_some_iff]
  exact and_congr_right' decide_eq_true_iff

theorem toCome_iff {task : AppTask} :
    ReminderToCome z (s.clock z) task ↔ ∃ t, alarm z task = some t ∧ ToCome s t :=
  exists_congr fun _ => scheduled_iff

/-- What is announced is the alarm, if it is to come. -/
theorem announced_eq_some (task : AppTask) {pending : String → Option DateTime}
    (ht : alarm z task = some t) (hcome : ToCome s t) :
    announced AppTask.id z (s.clock z) task pending task.id = some t := by
  rw [announced, scheduled_iff.mpr ⟨ht, hcome⟩]
  exact Function.update_self ..

/-- What is pending after an announcement and to come was announced, or was there. -/
theorem of_announced (task : AppTask) {pending : String → Option DateTime}
    (h : announced AppTask.id z (s.clock z) task pending task.id = some t) :
    alarm z task = some t ∨ pending task.id = some t := by
  by_cases hcome : ReminderToCome z (s.clock z) task
  · obtain ⟨u, hu⟩ := hcome
    simp only [announced, hu, Function.update_self, Option.some.injEq] at h
    exact .inl (h ▸ (scheduled_iff.mp hu).1)
  · rw [announced_of_not pending hcome] at h
    exact .inr h

/-! ## One step -/

/-- Where a step touches one task only, an exact state stays so when it is exact
about that task. -/
theorem exact_iff_at (hs : Exact z s) {o : Option TaskDoc} (hnow : s'.now = s.now)
    (htasks : s'.world.tasks = Function.update s.world.tasks id o)
    (hpending : ∀ x, x ≠ id → s'.world.pending x = s.world.pending x) :
    Exact z s' ↔
      (∀ t, s'.world.pending id = some t → ToCome s t →
        ∃ d, o = some d ∧ alarm z (.fromDS id d) = some t)
      ∧ ∀ d t, o = some d → d.isCompleted = false → alarm z (.fromDS id d) = some t →
        ToCome s t → s'.world.pending id = some t := by
  have hcome : ∀ t, ToCome s' t ↔ ToCome s t := fun t => by rw [ToCome, ToCome, hnow]
  constructor
  · intro h
    refine ⟨fun t ht hto => ?_, fun d t hd hopen halarm hto => ?_⟩
    · obtain ⟨d, hd, halarm⟩ := h.current id t ht ((hcome t).mpr hto)
      rw [htasks, Function.update_self] at hd
      exact ⟨d, hd, halarm⟩
    · exact h.pending id d t (by rw [htasks, Function.update_self, hd]) hopen halarm
        ((hcome t).mpr hto)
  · rintro ⟨hcurrent, hopen⟩
    refine ⟨fun x t ht hto => ?_, fun x d t hd hnot halarm hto => ?_⟩
    · by_cases hx : x = id
      · subst hx
        obtain ⟨d, hd, halarm⟩ := hcurrent t ht ((hcome t).mp hto)
        exact ⟨d, by rw [htasks, Function.update_self, hd], halarm⟩
      · rw [hpending x hx] at ht
        obtain ⟨d, hd, halarm⟩ := hs.current x t ht ((hcome t).mp hto)
        exact ⟨d, by rw [htasks, Function.update_of_ne hx, hd], halarm⟩
    · by_cases hx : x = id
      · subst hx
        rw [htasks, Function.update_self] at hd
        exact hopen d t hd hnot halarm ((hcome t).mp hto)
      · rw [htasks, Function.update_of_ne hx] at hd
        rw [hpending x hx]
        exact hs.pending x d t hd hnot halarm ((hcome t).mp hto)

/-- What `removeNotification` leaves at a task's address is past: what was to
come there was the task's own reminder. -/
theorem retracted_past (hs : Exact z s) (hd : s.world.tasks id = some d)
    (h : retracted AppTask.id z (s.clock z) (.fromDS id d) s.world.pending id = some t) :
    ¬ ToCome s t := by
  intro hto
  obtain ⟨d', hd', halarm⟩ := hs.current id t (retracted_le _ h) hto
  rw [hd, Option.some.injEq] at hd'
  have hcome : ReminderToCome z (s.clock z) (.fromDS id d) :=
    toCome_iff.mpr ⟨t, hd' ▸ halarm, hto⟩
  rw [retracted_of_toCome _ hcome] at h
  exact absurd ((Function.update_self ..).symm.trans h) (by simp)

/-- A task that was announced after its reminder was retracted is announced as it is. -/
theorem exact_of_announced (hs : Exact z s) (hd : s.world.tasks id = some d) (d' : TaskDoc) :
    (∀ t, announced AppTask.id z (s.clock z) (.fromDS id d')
          (retracted AppTask.id z (s.clock z) (.fromDS id d) s.world.pending) id = some t →
        ToCome s t → alarm z (.fromDS id d') = some t)
      ∧ ∀ t, alarm z (.fromDS id d') = some t → ToCome s t →
        announced AppTask.id z (s.clock z) (.fromDS id d')
          (retracted AppTask.id z (s.clock z) (.fromDS id d) s.world.pending) id = some t := by
  refine ⟨fun t ht hto => ?_, fun t halarm hto => announced_eq_some _ halarm hto⟩
  rcases of_announced (.fromDS id d') ht with halarm | hleft
  · exact halarm
  · exact absurd hto (retracted_past hs hd hleft)

/-- Making a task stores its document, and announces the map. -/
theorem step_create {uuid uid : String} {data : FormData}
    (h : step z s (.create id uuid uid data) = some s') :
    s.world.tasks id = none ∧ s'.now = s.now
      ∧ s'.world.tasks = Function.update s.world.tasks id (some (newTask z uid uuid data))
      ∧ s'.world.pending
        = announced AppTask.id z (s.clock z) (.fromMap (newTask z uid uuid data))
            s.world.pending := by
  obtain ⟨hid, hs'⟩ := Option.ite_none_left_eq_some.mp h
  rw [createTask_spec AppTask.id id (newTask_wellFormed ..)] at hs'
  rw [← Option.some.inj hs']
  exact ⟨by simpa using hid, rfl, rfl, rfl⟩

/-- There was no document, so nothing to come was pending for it. -/
theorem Exact.past_of_fresh (hs : Exact z s) (hfresh : s.world.tasks id = none)
    (ht : s.world.pending id = some t) : ¬ ToCome s t := by
  intro hto
  obtain ⟨d, hd, -⟩ := hs.current id t ht hto
  rw [hfresh] at hd
  exact absurd hd (by simp)

/-- A new task is exact when its announcement reaches its document's address, or
when there is nothing to announce. -/
theorem exact_create_iff {uuid uid : String} {data : FormData} (hs : Exact z s)
    (h : step z s (.create id uuid uid data) = some s') :
    Exact z s' ↔ Guard z s (.create id uuid uid data) := by
  obtain ⟨hfresh, hnow, htasks, hpending⟩ := step_create h
  -- the reminder is the same under both ids
  have halarm : alarm z (.fromMap (newTask z uid uuid data))
      = alarm z (.fromDS id (newTask z uid uuid data)) := rfl
  constructor
  · intro hexact hcome
    by_contra hne
    obtain ⟨t, ht, hto⟩ := toCome_iff.mp hcome
    have hstored : s'.world.tasks id = some (newTask z uid uuid data) := by
      rw [htasks, Function.update_self]
    have hleft : s'.world.pending id = some t :=
      hexact.pending id _ t hstored rfl (halarm ▸ ht) (by rwa [ToCome, hnow])
    rw [hpending, announced_of_ne _ (Ne.symm hne)] at hleft
    exact hs.past_of_fresh hfresh hleft hto
  · intro hguard
    by_cases hcome : ReminderToCome z (s.clock z) (.fromMap (newTask z uid uuid data))
    · obtain rfl : uuid = id := hguard hcome
      rw [exact_iff_at hs hnow htasks (fun x hx => by rw [hpending]; exact announced_of_ne _ hx),
        hpending]
      refine ⟨fun t ht hto => ⟨_, rfl, ?_⟩, fun d t hd _ hd' hto => ?_⟩
      · rcases of_announced (.fromMap (newTask z uid uuid data)) ht with hnew | hleft
        · exact halarm ▸ hnew
        · exact absurd hto (hs.past_of_fresh hfresh hleft)
      · rw [← Option.some.inj hd, ← halarm] at hd'
        exact announced_eq_some _ hd' hto
    · rw [announced_of_not _ hcome] at hpending
      rw [exact_iff_at hs hnow htasks (fun x _ => by rw [hpending]), hpending]
      refine ⟨fun t ht hto => absurd hto (hs.past_of_fresh hfresh ht), fun d t hd _ hd' hto => ?_⟩
      rw [← Option.some.inj hd, ← halarm] at hd'
      exact absurd (toCome_iff.mpr ⟨t, hd', hto⟩) hcome

section Operations

variable (hs : Exact z s) (hd : s.world.tasks id = some d)

include hs hd

/-- A completion ends a one-off task, and announces the next date of a repeating
one, if it has a time. -/
theorem exact_complete (hwf : d.WellFormed) (next : Option DateTime) :
    (∀ t, TaskOp.pending AppTask.id z (s.clock z) (.fromDS id d) d next .complete
          s.world.pending id = some t → ToCome s t →
        ∃ d', TaskOp.doc z (s.clock z) (.fromDS id d) d next .complete = some d'
          ∧ alarm z (.fromDS id d') = some t)
      ∧ ∀ d' t, TaskOp.doc z (s.clock z) (.fromDS id d) d next .complete = some d' →
        d'.isCompleted = false → alarm z (.fromDS id d') = some t → ToCome s t →
        TaskOp.pending AppTask.id z (s.clock z) (.fromDS id d) d next .complete
          s.world.pending id = some t := by
  have hdoc : TaskOp.doc z (s.clock z) (.fromDS id d) d next .complete
      = some (docAfter z (s.clock z) (.fromDS id d) d next) := rfl
  have hannounced := exact_of_announced hs hd (docAfter z (s.clock z) (.fromDS id d) d next)
  unfold TaskOp.pending TaskOp.announces
  by_cases hnext : next.isSome ∧ (AppTask.fromDS id d).hasTime
  · simp only [if_pos hnext]
    refine ⟨fun t ht hto => ⟨_, hdoc, hannounced.1 t ht hto⟩, fun d' t hd' _ halarm hto => ?_⟩
    rw [← Option.some.inj hd'] at halarm
    exact hannounced.2 t halarm hto
  · simp only [if_neg hnext]
    refine ⟨fun t ht hto => absurd hto (retracted_past hs hd ht), fun d' t hd' hopen halarm _ => ?_⟩
    rw [← Option.some.inj hd'] at hopen halarm
    -- a task that stays open and was not announced has no time
    have hsome : next.isSome = true := by
      rw [docAfter_isCompleted] at hopen
      simpa using hopen
    have htime : d.hasTime = false := by
      by_contra ht
      exact hnext ⟨hsome, by simpa using ht⟩
    have hreminder : (AppTask.fromDS id (docAfter z (s.clock z) (.fromDS id d) d next)).reminder
        = some .never := by
      rw [AppTask.fromDS_reminder, docAfter_reminder]
      exact hwf.reminder_never htime
    unfold alarm at halarm
    rw [if_neg (not_not.mpr hreminder)] at halarm
    exact absurd halarm (by simp)

/-- The details page keeps the task, and takes back its reminder. -/
theorem exact_deleteFromDetails (next : Option DateTime) :
    ((∀ t, TaskOp.pending AppTask.id z (s.clock z) (.fromDS id d) d next .deleteFromDetails
          s.world.pending id = some t → ToCome s t →
        ∃ d', some d = some d' ∧ alarm z (.fromDS id d') = some t)
      ∧ ∀ d' t, some d = some d' → d'.isCompleted = false →
        alarm z (.fromDS id d') = some t → ToCome s t →
        TaskOp.pending AppTask.id z (s.clock z) (.fromDS id d) d next .deleteFromDetails
          s.world.pending id = some t)
      ↔ ¬ ReminderToCome z (s.clock z) (.fromDS id d) ∨ d.isCompleted = true := by
  have hpending : TaskOp.pending AppTask.id z (s.clock z) (.fromDS id d) d next .deleteFromDetails
      s.world.pending = retracted AppTask.id z (s.clock z) (.fromDS id d) s.world.pending := rfl
  rw [hpending]
  constructor
  · rintro ⟨-, hpend⟩
    by_contra hnot
    rw [not_or, not_not] at hnot
    obtain ⟨hcome, hopen⟩ := hnot
    obtain ⟨t, halarm, hto⟩ := toCome_iff.mp hcome
    exact retracted_past hs hd (hpend d t rfl (by simpa using hopen) halarm hto) hto
  · intro hor
    refine ⟨fun t ht hto => absurd hto (retracted_past hs hd ht),
      fun d' t hd' hopen halarm hto => ?_⟩
    obtain rfl := Option.some.inj hd'
    have hcome : ReminderToCome z (s.clock z) (.fromDS id d) := toCome_iff.mpr ⟨t, halarm, hto⟩
    rcases hor with hnot | hdone
    · exact absurd hcome hnot
    · rw [hopen] at hdone
      exact absurd hdone (by simp)

end Operations

theorem step_wellFormed (s : Phone) (e : Event) (s' : Phone) (hs : s.world.WellFormed)
    (h : step z s e = some s') : s'.world.WellFormed := by
  cases e with
  | create id uuid uid data =>
      obtain ⟨-, -, htasks, -⟩ := step_create h
      apply hs.update htasks
      intro d hd
      rw [← Option.some.inj hd]
      exact newTask_wellFormed z uid uuid data
  | operate id op => exact Reminders.step_wellFormed s (.operate id op) s' hs h
  | clearRecord => exact Reminders.step_wellFormed s .clearRecord s' hs h
  | tick elapsed => exact Reminders.step_wellFormed (z := z) s (.tick elapsed) s' hs h

/-- **One step keeps what is ahead exact** when it meets the guard, and only then. -/
theorem exact_step_iff (s : Phone) (e : Event) (s' : Phone) (hwf : s.world.WellFormed)
    (hs : Exact z s) (h : step z s e = some s') : Exact z s' ↔ Guard z s e := by
  cases e with
  | create id uuid uid data => exact exact_create_iff hs h
  | clearRecord =>
      rw [← Option.some.inj h]
      -- the tasks are gone, and what is pending is as it was
      constructor
      · intro hexact id t ht hto
        obtain ⟨d, hd, -⟩ := hexact.current id t ht hto
        exact absurd hd (by simp [clearRecord, perform, exec])
      · intro hguard
        refine ⟨fun id t ht hto => absurd hto (hguard id t ht), fun id d t hd => ?_⟩
        exact absurd hd (by simp [clearRecord, perform, exec])
  | tick elapsed =>
      rw [← Option.some.inj h]
      -- what is still to come later was to come before
      have hback : ∀ t, ToCome { s with now := s.now + elapsed } t → ToCome s t := by
        intro t hto
        have hlt : s.now + (elapsed : ℤ) < t.microsecondsSinceEpoch := hto
        exact lt_of_le_of_lt (by omega) hlt
      refine iff_of_true ⟨fun id t ht hto => hs.current id t ht (hback t hto), ?_⟩ trivial
      exact fun id d t hd hopen halarm hto => hs.pending id d t hd hopen halarm (hback t hto)
  | operate id op =>
      have hnow : s'.now = s.now := by
        simp only [step, Reminders.step, Option.bind_eq_some_iff] at h
        obtain ⟨d, -, h⟩ := h
        obtain ⟨-, hs'⟩ := Option.ite_none_right_eq_some.mp h
        rw [← Option.some.inj hs']
      obtain ⟨d, next, hd, -, htasks, hpending⟩ := step_operate hwf h
      rw [exact_iff_at hs hnow htasks
        (fun x hx => by rw [hpending]; exact pending_of_ne op next _ hx), hpending]
      cases op with
      | complete => exact iff_of_true (exact_complete hs hd (hwf id d hd) next) trivial
      | edit data =>
          have hannounced := exact_of_announced hs hd ((TaskUpdate.form data).apply d)
          refine iff_of_true ⟨fun t ht hto => ⟨_, rfl, hannounced.1 t ht hto⟩, ?_⟩ trivial
          intro d' t hd' _ halarm hto
          rw [← Option.some.inj hd'] at halarm
          exact hannounced.2 t halarm hto
      | delete =>
          refine iff_of_true ⟨fun t ht hto => absurd hto (retracted_past hs hd ht), ?_⟩ trivial
          exact fun d' t hd' => absurd hd' (by simp [TaskOp.doc])
      | deleteFromDetails =>
          have hguard : Guard z s (.operate id .deleteFromDetails)
              ↔ ¬ ReminderToCome z (s.clock z) (.fromDS id d) ∨ d.isCompleted = true := by
            refine ⟨fun hg => hg d hd, fun hg d' hd' => ?_⟩
            rw [hd, Option.some.injEq] at hd'
            exact hd' ▸ hg
          rw [hguard]
          exact exact_deleteFromDetails hs hd next

/-! ## Runs -/

theorem exact_newPhone : Exact z newPhone where
  current _ _ h := absurd h (by simp [newPhone, World.empty])
  pending _ _ _ h := absurd h (by simp [newPhone, World.empty])

/-- A daily task is made without a time, given one, moved and completed. -/
def movedRun : List Event :=
  [.create "doc" "uuid" "uid" (.untimed 1654041600000 .daily),
    .operate "doc" (.edit (.timed 1654041600000 1654092000000 .daily .ontime)),
    .operate "doc" (.edit (.timed 1654041600000 1654095600000 .daily .m5)),
    .operate "doc" .complete]

end AquaFocus.PendingReminders
