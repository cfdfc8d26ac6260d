/-
`lib/screens/UserPages/Setting Pages/setting_screen.dart`: the switch
"Allow Notifications".

Switching off asks first, and the dialog promises that nothing will be sent. Its
button flips the switch and writes the flag (into `isCheckList`, which is where
`updateNotif` writes); the call that would cancel what is pending stands in the
branch of the handler that is taken when the switch is off already. Nothing that
schedules a reminder asks the switch.

`silent_iff_unscheduled` says which runs keep the promise all the same: those in
which the switch is only ever turned off with nothing pending, and nothing is
scheduled while it is off.
-/
import AquaFocus.TaskOps
import AquaFocus.Lib.Runs

set_option autoImplicit false

open Dart Calls Runs

namespace AquaFocus.Settings

/-! ## The screen -/

/-- The flags of the account's document that the screen reads and writes. -/
structure Stored where
  allowNotif : Bool
  isCheckList : Bool

/-- `DatabaseServices.updateNotif`. -/
def updateNotif (newNotif : Bool) (stored : Stored) : Stored :=
  { stored with isCheckList := newNotif }

/-- The account, the store, the ids of its documents, the stored flags, and the
screen: its switch, and whether its dialog is open. -/
structure Phone (κ : Type) where
  uid : String
  world : World κ
  docIds : List String
  stored : Stored
  allowNotif : Bool
  dialog : Bool

inductive Event
  | create (docId uid uuid : String) (data : FormData) (c : Clock)
  | operate (docId : String) (op : TaskOp) (c : Clock)
  | openSettings
  | tap (c : Clock)
  | cancelDialog
  | disableAnyway

variable {κ : Type} [DecidableEq κ] (key : AppTask → κ) (z : Zone)

/-- The tasks the switch asks the store for: the user's, not completed, and with a
time. -/
def eventList (s : Phone κ) : List AppTask :=
  s.docIds.filterMap fun id =>
    (s.world.tasks id).bind fun d =>
      if d.userId = some s.uid ∧ d.isCompleted = false ∧ d.hasTime = true then some (.fromDS id d) else none

/-- The switch's `onChanged`. -/
def onChanged (c : Clock) (value : Bool) (s : Phone κ) : Phone κ :=
  if value then
    let allowNotif := !s.allowNotif
    -- `cancelAll` is the branch of a switch that was on, and hands over `true`
    let calls := if allowNotif then (eventList s).flatMap (addNotification z c) else [.cancelAll]
    { s with
      allowNotif := allowNotif
      world := (perform (exec key z c) calls s.world).1
      stored := updateNotif allowNotif s.stored }
  else { s with dialog := true }

/-- The dialog's button "Disable Anyway". -/
def disableAnyway (s : Phone κ) : Phone κ :=
  { s with
    dialog := false
    allowNotif := !s.allowNotif
    stored := updateNotif (!s.allowNotif) s.stored }

/-- A switch that is tapped hands its handler the other value. The dialog keeps
the rest of the screen from being tapped. -/
def step (s : Phone κ) : Event → Option (Phone κ)
  | .create docId uid uuid data c =>
      if (s.world.tasks docId).isSome then none
      else some { s with
        world := (perform (exec key z c)
          (createTask z c docId (newTask z uid uuid data)) s.world).1
        docIds := docId :: s.docIds }
  | .operate docId op c =>
      (s.world.tasks docId).bind fun d =>
        if op.offered d then
          some { s with world := performOp key z docId (c, op) s.world }
        else none
  | .openSettings => if s.dialog then none else some { s with allowNotif := s.stored.allowNotif }
  | .tap c => if s.dialog then none else some (onChanged key z c (!s.allowNotif) s)
  | .cancelDialog => if s.dialog then some { s with dialog := false } else none
  | .disableAnyway => if s.dialog then some (disableAnyway s) else none

/-! ## The promise -/

/-- Nothing is pending. -/
def Quiet (s : Phone κ) : Prop := ∀ x, s.world.pending x = none

/-- With the switch off, nothing is pending. -/
def Silent (s : Phone κ) : Prop := s.allowNotif = false → Quiet s

/-- An operation that has a reminder to announce. -/
def Announces (c : Clock) (task : AppTask) (d : TaskDoc) (op : TaskOp) : Prop :=
  ∃ next event, nextTimeOf z c task = .ok next ∧ op.announces z c task d next = some event
    ∧ ReminderToCome z c event

/-- The steps that keep the promise. -/
def Guard (s : Phone κ) : Event → Prop
  | .create _ uid uuid data c =>
      s.allowNotif = false → ¬ ReminderToCome z c (.fromMap (newTask z uid uuid data))
  | .operate docId op c =>
      s.allowNotif = false → ∀ d, s.world.tasks docId = some d →
        ¬ Announces z c (.fromDS docId d) d op
  | .openSettings => s.stored.allowNotif = false → Quiet s
  | .disableAnyway => s.allowNotif = true → Quiet s
  | .tap _ => True
  | .cancelDialog => True

/-! ## One step -/

variable {key z} {s s' : Phone κ} {docId : String}

theorem step_create {uid uuid : String} {data : FormData} {c : Clock}
    (h : step key z s (.create docId uid uuid data c) = some s') :
    s'.allowNotif = s.allowNotif
      ∧ s'.world.tasks = Function.update s.world.tasks docId (some (newTask z uid uuid data))
      ∧ s'.world.pending
        = announced key z c (.fromMap (newTask z uid uuid data)) s.world.pending := by
  rw [step] at h
  by_cases hid : (s.world.tasks docId).isSome
  · rw [if_pos hid] at h
    exact absurd h (by simp)
  · rw [if_neg hid, createTask_spec key docId (newTask_wellFormed ..), Option.some.injEq] at h
    rw [← h]
    exact ⟨rfl, rfl, rfl⟩

theorem step_operate {op : TaskOp} {c : Clock} (hs : s.world.WellFormed)
    (h : step key z s (.operate docId op c) = some s') :
    ∃ d next, s.world.tasks docId = some d ∧ s'.allowNotif = s.allowNotif
      ∧ nextTimeOf z c (.fromDS docId d) = .ok next
      ∧ s'.world.tasks = Function.update s.world.tasks docId
          (op.doc z c (.fromDS docId d) d next)
      ∧ s'.world.pending = op.pending key z c (.fromDS docId d) d next s.world.pending := by
  simp only [step, Option.bind_eq_some_iff] at h
  obtain ⟨d, hd, h⟩ := h
  obtain ⟨next, hnext, htasks, hpending⟩ := performOp_spec key z (c, op) hd (hs docId d hd)
  by_cases hop : op.offered d = true
  · rw [if_pos hop, Option.some.injEq] at h
    rw [← h]
    exact ⟨d, next, hd, rfl, hnext, htasks, hpending⟩
  · rw [if_neg hop] at h
    exact absurd h (by simp)

/-- Announcing a task on a quiet phone leaves it quiet when there is nothing to announce. -/
theorem announced_quiet_iff {c : Clock} {event : AppTask} {pending : κ → Option DateTime}
    (h : ∀ x, pending x = none) :
    (∀ x, announced key z c event pending x = none) ↔ ¬ ReminderToCome z c event := by
  constructor
  · intro hall hcome
    obtain ⟨t, ht⟩ := announced_of_toCome pending key hcome
    have hx := hall (key event)
    rw [ht, Function.update_self] at hx
    exact absurd hx (by simp)
  · intro hnot x
    rw [announced_of_not pending hnot]
    exact h x

theorem retracted_quiet {c : Clock} {task : AppTask} {pending : κ → Option DateTime}
    (h : ∀ x, pending x = none) : ∀ x, retracted key z c task pending x = none := by
  intro x
  rw [Option.eq_none_iff_forall_ne_some]
  intro t ht
  have hx := retracted_le pending ht
  rw [h x] at hx
  exact absurd hx (by simp)

/-- The same of an operation. -/
theorem pending_quiet_iff {c : Clock} {task : AppTask} {d : TaskDoc} {next : Option DateTime}
    {op : TaskOp} {pending : κ → Option DateTime} (hnext : nextTimeOf z c task = .ok next)
    (h : ∀ x, pending x = none) :
    (∀ x, op.pending key z c task d next pending x = none) ↔ ¬ Announces z c task d op := by
  have hretracted : ∀ x, retracted key z c task pending x = none := retracted_quiet h
  have hannounces : Announces z c task d op
      ↔ ∃ event, op.announces z c task d next = some event ∧ ReminderToCome z c event := by
    constructor
    · rintro ⟨next', event, hnext', hevent, hcome⟩
      rw [hnext, Except.ok.injEq] at hnext'
      subst hnext'
      exact ⟨event, hevent, hcome⟩
    · rintro ⟨event, hevent, hcome⟩
      exact ⟨next, event, hnext, hevent, hcome⟩
  rw [hannounces]
  unfold TaskOp.pending
  cases hop : op.announces z c task d next with
  | none => exact iff_of_true hretracted (fun ⟨event, hevent, _⟩ => absurd hevent (by simp))
  | some event =>
      simp only [announced_quiet_iff hretracted, Option.some.injEq, exists_eq_left']

/-- The switch's handler writes no task. -/
theorem onChanged_tasks (c : Clock) (value : Bool) :
    (onChanged key z c value s).world.tasks = s.world.tasks := by
  unfold onChanged
  by_cases hvalue : value = true
  · have hsilent : ∀ call ∈ (if (!s.allowNotif) = true then
          (eventList s).flatMap (addNotification z c) else [.cancelAll]),
        call.writes = false := by
      intro call hcall
      by_cases hon : (!s.allowNotif) = true
      · rw [if_pos hon, List.mem_flatMap] at hcall
        obtain ⟨event, -, hcall⟩ := hcall
        exact addNotification_writes z c event call hcall
      · rw [if_neg hon, List.mem_singleton] at hcall
        rw [hcall]
        rfl
    rw [if_pos hvalue]
    exact (perform_store hsilent s.world).1
  · rw [if_neg hvalue]

/-- A tapped switch ends up on: turning it off is the dialog's affair. -/
theorem tap_allowNotif (c : Clock) : (onChanged key z c (!s.allowNotif) s).allowNotif = true := by
  unfold onChanged
  by_cases hon : s.allowNotif = true
  · rw [hon, if_neg (by decide)]
  · have hoff : s.allowNotif = false := by simpa using hon
    rw [hoff, if_pos (by decide)]
    rfl

/-! ## Runs -/

theorem step_wellFormed (s : Phone κ) (e : Event) (s' : Phone κ) (hs : s.world.WellFormed)
    (h : step key z s e = some s') : s'.world.WellFormed := by
  cases e with
  | create docId uid uuid data c =>
      obtain ⟨-, htasks, -⟩ := step_create h
      apply hs.update htasks
      intro d hd
      rw [← Option.some.inj hd]
      exact newTask_wellFormed z uid uuid data
  | operate docId op c =>
      obtain ⟨d, next, hd, -, -, htasks, -⟩ := step_operate hs h
      exact hs.update htasks fun d' hd' =>
        TaskOp.doc_wellFormed z c ((hs docId d hd).read docId) (hs docId d hd) hd'
  | openSettings =>
      simp only [step, Option.ite_none_left_eq_some, Option.some.injEq] at h
      rw [← h.2]
      exact hs
  | tap c =>
      simp only [step, Option.ite_none_left_eq_some, Option.some.injEq] at h
      intro id d hd
      rw [← h.2, onChanged_tasks] at hd
      exact hs id d hd
  | cancelDialog =>
      simp only [step, Option.ite_none_right_eq_some, Option.some.injEq] at h
      rw [← h.2]
      exact hs
  | disableAnyway =>
      simp only [step, Option.ite_none_right_eq_some, Option.some.injEq] at h
      rw [← h.2]
      exact hs

/-- One step keeps the promise exactly when it meets the guard. -/
theorem silent_step_iff (s : Phone κ) (e : Event) (s' : Phone κ) (hwf : s.world.WellFormed)
    (hs : Silent s) (h : step key z s e = some s') : Silent s' ↔ Guard z s e := by
  cases e with
  | create docId uid uuid data c =>
      obtain ⟨hswitch, -, hpending⟩ := step_create h
      unfold Silent Quiet Guard
      rw [hswitch, hpending]
      exact imp_congr_right fun hoff => announced_quiet_iff (hs hoff)
  | operate docId op c =>
      obtain ⟨d, next, hd, hswitch, hnext, -, hpending⟩ := step_operate hwf h
      unfold Silent Quiet Guard
      rw [hswitch, hpending]
      apply imp_congr_right
      intro hoff
      rw [pending_quiet_iff hnext (hs hoff)]
      refine ⟨fun hnot d' hd' => ?_, fun hall => hall d hd⟩
      rw [hd, Option.some.injEq] at hd'
      rwa [← hd']
  | openSettings =>
      simp only [step, Option.ite_none_left_eq_some, Option.some.injEq] at h
      rw [← h.2]
      exact Iff.rfl
  | tap c =>
      simp only [step, Option.ite_none_left_eq_some, Option.some.injEq] at h
      -- a tap never turns the switch off by itself
      refine iff_of_true (fun hoff => ?_) trivial
      rw [← h.2, tap_allowNotif] at hoff
      exact absurd hoff (by decide)
  | cancelDialog =>
      simp only [step, Option.ite_none_right_eq_some, Option.some.injEq] at h
      rw [← h.2]
      exact iff_of_true hs trivial
  | disableAnyway =>
      simp only [step, Option.ite_none_right_eq_some, Option.some.injEq] at h
      -- the button flips the switch and leaves what is pending
      have hswitch : s'.allowNotif = false ↔ s.allowNotif = true := by
        rw [← h.2]
        simp [AquaFocus.Settings.disableAnyway]
      have hquiet : Quiet s' ↔ Quiet s := by
        rw [← h.2]
        exact Iff.rfl
      exact imp_congr hswitch hquiet

/-- **The promise of the dialog** is kept by exactly the runs whose steps turn
the switch off with nothing pending, and schedule nothing while it is off. -/
theorem silent_iff_unscheduled (key : AppTask → κ) (z : Zone) (s : Phone κ)
    (hwf : s.world.WellFormed) (hs : Silent s) (es : List Event) :
    Always (step key z) Silent s es ↔ Meets (step key z) (Guard z) s es :=
  always_iff_meets (fun s e s' hwf _ h _ => step_wellFormed s e s' hwf h) silent_step_iff hwf hs es

/-- An account as `addUser` makes it, with its settings open. -/
def newPhone : Phone String where
  uid := "uid"
  world := .empty
  docIds := []
  stored := ⟨true, true⟩
  allowNotif := true
  dialog := false

/-- A task for two o'clock, with a reminder on time, created at noon. -/
def createAtTwo : Event :=
  .create "doc" "uid" "doc" (.timed 1654041600000 1654092000000 .never .ontime) (noonOfJune 1)

/-- Notifications are disabled with a reminder pending: it stays. -/
theorem not_always_silent :
    ¬ Always (step AppTask.id utc) Silent newPhone
        [createAtTwo, .tap (noonOfJune 1), .disableAnyway] := by
  intro h
  have hend : some (DateTime.ofMillis 1654092000000) = none :=
    h _ (List.prefix_refl _) _ rfl rfl "doc"
  exact absurd hend (by simp)

theorem silent_iff_unscheduled_newPhone :
    Always (step AppTask.id utc) Silent newPhone [.tap (noonOfJune 1), .disableAnyway, createAtTwo]
      ↔ Meets (step AppTask.id utc) (Guard utc) newPhone
          [.tap (noonOfJune 1), .disableAnyway, createAtTwo] :=
  silent_iff_unscheduled AppTask.id utc newPhone
    (fun _ _ h => absurd h (by simp [newPhone, World.empty]))
    (fun h => absurd h (by decide)) _

end AquaFocus.Settings
