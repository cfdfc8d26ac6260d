/-
The life of a reminder.

A scheduled notification repeats daily until it is cancelled or replaced, so
every operation that ends a task's reminder has to retract it. They all do so
through `removeNotification`, which first asks `isScheduledEvent` whether the
reminder is still to come, and so retracts nothing once its time has passed.

A run is any order of operations and passing time, each operation finished
before the next and the clock variables equal to the current instant. Tasks are
addressed by their ids, and a new document's id is its task's. `clean_iff_retracts`
says of every run, from any clean state and in any zone, which of its steps leave
a notification of nobody behind.
-/
import AquaFocus.TaskOps
import AquaFocus.Lib.Runs

set_option autoImplicit false

open Dart Calls Runs

namespace AquaFocus.Reminders

/-! ## The machine -/

/-- The store with what is pending, and the current instant. -/
structure Phone where
  world : World String
  now : ℤ

inductive Event
  | create (docId uid : String) (data : FormData)
  | operate (docId : String) (op : TaskOp)
  | clearRecord
  | tick (elapsed : ℕ)

/-- `clearRecord`, of which only the tasks are modelled. -/
def clearRecord : List Call := [.clearTasks]

variable (z : Zone)

def Phone.clock (s : Phone) : Clock := .read z (.ofMicros s.now)

def step (s : Phone) : Event → Option Phone
  | .create docId uid data =>
      if (s.world.tasks docId).isSome then none
      else some { s with
        world := (perform (exec AppTask.id z (s.clock z))
          (createTask z (s.clock z) docId (newTask z uid docId data)) s.world).1 }
  | .operate docId op =>
      (s.world.tasks docId).bind fun d =>
        if op.offered d then
          some { s with world := performOp AppTask.id z docId (s.clock z, op) s.world }
        else none
  | .clearRecord =>
      some { s with world := (perform (exec AppTask.id z (s.clock z)) clearRecord s.world).1 }
  | .tick elapsed => some { s with now := s.now + elapsed }

/-- Every pending notification belongs to a task that exists, is not completed,
and has a reminder. -/
def Clean (s : Phone) : Prop :=
  ∀ id t, s.world.pending id = some t →
    ∃ d, s.world.tasks id = some d ∧ d.isCompleted = false ∧ d.reminder ≠ some .never

/-- Nothing is left of the reminder of `d` once `removeNotification` is done with it. -/
def Retracts (s : Phone) (id : String) (d : TaskDoc) : Prop :=
  s.world.pending id = none ∨ ReminderToCome z (s.clock z) (.fromDS id d)

/-- The operations that leave nothing of the reminder of `d` behind. -/
def OpGuard (s : Phone) (id : String) (d : TaskDoc) : TaskOp → Prop
  | .complete => d.repeats = .never → Retracts z s id d
  | .delete => Retracts z s id d
  | .deleteFromDetails => True
  | .edit data =>
      (ReminderToCome z (s.clock z) (.fromDS id ((TaskUpdate.form data).apply d)) →
        d.isCompleted = false)
      ∧ (data.reminder = .never → Retracts z s id d)

/-- The steps that leave a clean state clean. -/
def Guard (s : Phone) : Event → Prop
  | .create .. => True
  | .tick _ => True
  | .clearRecord => ∀ id, s.world.pending id = none
  | .operate id op => ∀ d, s.world.tasks id = some d → OpGuard z s id d op

/-! ## One step -/

variable {z} {s s' : Phone} {id : String} {d : TaskDoc}

theorem step_create {uid : String} {data : FormData}
    (h : step z s (.create id uid data) = some s') :
    s.world.tasks id = none
      ∧ s'.world.tasks = Function.update s.world.tasks id (some (newTask z uid id data))
      ∧ s'.world.pending
        = announced AppTask.id z (s.clock z) (.fromMap (newTask z uid id data))
            s.world.pending := by
  rw [step] at h
  by_cases hid : (s.world.tasks id).isSome
  · rw [if_pos hid] at h
    exact absurd h (by simp)
  · rw [if_neg hid, createTask_spec AppTask.id id (newTask_wellFormed ..), Option.some.injEq] at h
    rw [← h]
    exact ⟨by simpa using hid, rfl, rfl⟩

theorem step_operate {op : TaskOp} (hs : s.world.WellFormed)
    (h : step z s (.operate id op) = some s') :
    ∃ d next, s.world.tasks id = some d
      ∧ nextTimeOf z (s.clock z) (.fromDS id d) = .ok next
      ∧ s'.world.tasks
        = Function.update s.world.tasks id (op.doc z (s.clock z) (.fromDS id d) d next)
      ∧ s'.world.pending
        = op.pending AppTask.id z (s.clock z) (.fromDS id d) d next s.world.pending := by
  simp only [step, Option.bind_eq_some_iff] at h
  obtain ⟨d, hd, h⟩ := h
  obtain ⟨next, hnext, htasks, hpending⟩ :=
    performOp_spec AppTask.id z (s.clock z, op) hd (hs id d hd)
  by_cases hop : op.offered d = true
  · rw [if_pos hop, Option.some.injEq] at h
    rw [← h]
    exact ⟨d, next, hd, hnext, htasks, hpending⟩
  · rw [if_neg hop] at h
    exact absurd h (by simp)

/-- Where a step touches one task only, it leaves a clean state clean when what
it leaves at that task's address is. -/
theorem clean_iff_at (hs : Clean s) {o : Option TaskDoc}
    (htasks : s'.world.tasks = Function.update s.world.tasks id o)
    (hpending : ∀ x, x ≠ id → s'.world.pending x = s.world.pending x) :
    Clean s' ↔ ∀ t, s'.world.pending id = some t →
      ∃ d, o = some d ∧ d.isCompleted = false ∧ d.reminder ≠ some .never := by
  constructor
  · intro h t ht
    obtain ⟨d, hd, hrest⟩ := h id t ht
    rw [htasks, Function.update_self] at hd
    exact ⟨d, hd, hrest⟩
  · intro h x t ht
    by_cases hx : x = id
    · subst hx
      obtain ⟨d, hd, hrest⟩ := h t ht
      exact ⟨d, by rw [htasks, Function.update_self, hd], hrest⟩
    · rw [hpending x hx] at ht
      obtain ⟨d, hd, hrest⟩ := hs x t ht
      exact ⟨d, by rw [htasks, Function.update_of_ne hx, hd], hrest⟩

/-- An operation touches the address of its own task only. -/
theorem pending_of_ne (op : TaskOp) (next : Option DateTime) (pending : String → Option DateTime)
    {x : String} (hx : x ≠ id) :
    op.pending AppTask.id z (s.clock z) (.fromDS id d) d next pending x = pending x := by
  have hretracted : retracted AppTask.id z (s.clock z) (.fromDS id d) pending x = pending x :=
    retracted_of_ne pending hx
  unfold TaskOp.pending TaskOp.announces
  cases op with
  | edit data => exact (announced_of_ne _ hx).trans hretracted
  | delete => exact hretracted
  | deleteFromDetails => exact hretracted
  | complete =>
      by_cases hnext : next.isSome ∧ (AppTask.fromDS id d).hasTime
      · simp only [if_pos hnext]
        exact (announced_of_ne _ hx).trans hretracted
      · simp only [if_neg hnext]
        exact hretracted

/-! ## Each operation

What a clean state is left as at the task's own address, operation by operation. -/

/-- What is left of a reminder after `removeNotification`. -/
theorem retracted_iff :
    (∀ t, retracted AppTask.id z (s.clock z) (.fromDS id d) s.world.pending id ≠ some t)
      ↔ Retracts z s id d := by
  have hiff : retracted AppTask.id z (s.clock z) (.fromDS id d) s.world.pending id = none
      ↔ Retracts z s id d := retracted_eq_none_iff s.world.pending
  rw [← Option.eq_none_iff_forall_ne_some]
  exact hiff

section Operations

variable (hs : Clean s) (hd : s.world.tasks id = some d)

include hs hd

/-- In a clean state what is pending for a task says what its document is like. -/
theorem Clean.pending {t : DateTime} (ht : s.world.pending id = some t) :
    d.isCompleted = false ∧ d.reminder ≠ some .never := by
  obtain ⟨d', hd', hrest⟩ := hs id t ht
  rw [hd, Option.some.injEq] at hd'
  rwa [hd']

/-- Editing: the new reminder must not be that of a completed task, and a
reminder that goes must be retracted. -/
theorem edit_clean_iff (data : FormData) (next : Option DateTime) :
    (∀ t, TaskOp.pending AppTask.id z (s.clock z) (.fromDS id d) d next (.edit data)
          s.world.pending id = some t →
        ∃ d', TaskOp.doc z (s.clock z) (.fromDS id d) d next (.edit data) = some d'
          ∧ d'.isCompleted = false ∧ d'.reminder ≠ some .never)
      ↔ (ReminderToCome z (s.clock z) (.fromDS id ((TaskUpdate.form data).apply d)) →
          d.isCompleted = false)
        ∧ (data.reminder = .never → Retracts z s id d) := by
  have hdoc : (∃ d', TaskOp.doc z (s.clock z) (.fromDS id d) d next (.edit data) = some d'
        ∧ d'.isCompleted = false ∧ d'.reminder ≠ some .never)
      ↔ d.isCompleted = false ∧ data.reminder ≠ .never := by
    simp [TaskOp.doc, TaskUpdate.apply]
  simp only [hdoc, TaskOp.pending, TaskOp.announces, AppTask.fromDS_id]
  have hretracted : (∀ t, retracted AppTask.id z (s.clock z) (.fromDS id d) s.world.pending id
      ≠ some t) ↔ Retracts z s id d := retracted_iff
  by_cases hcome : ReminderToCome z (s.clock z) (.fromDS id ((TaskUpdate.form data).apply d))
  · -- the new reminder is announced, so it is not `never`
    have hset : data.reminder ≠ .never := by
      intro hnever
      exact not_toCome_of_never (congrArg some hnever) hcome
    obtain ⟨t, ht⟩ := announced_of_toCome
      (retracted AppTask.id z (s.clock z) (.fromDS id d) s.world.pending) AppTask.id hcome
    rw [ht]
    constructor
    · intro h
      exact ⟨fun _ => (h t (Function.update_self ..)).1, fun hnever => absurd hnever hset⟩
    · rintro ⟨hopen, -⟩ u -
      exact ⟨hopen hcome, hset⟩
  · rw [announced_of_not _ hcome]
    constructor
    · intro h
      exact ⟨fun hc => absurd hc hcome, fun hnever => hretracted.mp fun t ht => (h t ht).2 hnever⟩
    · rintro ⟨-, hret⟩ t ht
      refine ⟨(hs.pending hd (retracted_le _ ht)).1, fun hnever => ?_⟩
      exact hretracted.mpr (hret hnever) t ht

/-- Completing keeps the reminder setting, so what is pending after it was set. -/
theorem complete_reminder {next : Option DateTime} {t : DateTime}
    (ht : TaskOp.pending AppTask.id z (s.clock z) (.fromDS id d) d next .complete
      s.world.pending id = some t) : d.reminder ≠ some .never := by
  intro hnever
  have hnot : ¬ ReminderToCome z (s.clock z) (.fromDS id d) := not_toCome_of_never hnever
  -- a task without a reminder announces none, so this one was pending before
  have hafter : (docAfter z (s.clock z) (.fromDS id d) d next).reminder = some .never := by
    rw [docAfter_reminder, hnever]
  have hpending : s.world.pending id = some t := by
    unfold TaskOp.pending TaskOp.announces at ht
    by_cases hnext : next.isSome ∧ (AppTask.fromDS id d).hasTime
    · simp only [if_pos hnext] at ht
      rw [announced_of_not _ (not_toCome_of_never hafter), retracted_of_not _ hnot] at ht
      exact ht
    · simp only [if_neg hnext] at ht
      rwa [retracted_of_not _ hnot] at ht
  exact (hs.pending hd hpending).2 hnever

/-- Completing: a one-off task ends up completed, and its reminder must be
retracted; a repeating one goes on, with its reminder. -/
theorem complete_clean_iff (hwf : d.WellFormed) {next : Option DateTime}
    (hnext : nextTimeOf z (s.clock z) (.fromDS id d) = .ok next) :
    (∀ t, TaskOp.pending AppTask.id z (s.clock z) (.fromDS id d) d next .complete
          s.world.pending id = some t →
        ∃ d', TaskOp.doc z (s.clock z) (.fromDS id d) d next .complete = some d'
          ∧ d'.isCompleted = false ∧ d'.reminder ≠ some .never)
      ↔ (d.repeats = .never → Retracts z s id d) := by
  by_cases hr : d.repeats = .never
  · have hrep : (AppTask.fromDS id d).repeats = .never := hr
    rw [nextTimeOf_of_never hrep, Except.ok.injEq] at hnext
    subst hnext
    rw [← retracted_iff]
    constructor
    · intro h _ t ht
      obtain ⟨d', hd', hopen, -⟩ := h t ht
      rw [← Option.some.inj hd', docAfter_isCompleted] at hopen
      exact absurd hopen (by decide)
    · intro h t ht
      exact absurd ht (h hr t)
  · have hrep : (AppTask.fromDS id d).repeats ≠ .never := hr
    obtain ⟨t', hsome⟩ := nextTimeOf_of_repeats (z := z) (c := s.clock z) (hwf.read id) hrep
    rw [show AppTask.read id d = .fromDS id d from rfl, hnext, Except.ok.injEq] at hsome
    subst hsome
    refine iff_of_true (fun t ht => ⟨_, rfl, docAfter_isCompleted .., ?_⟩)
      (fun hnever => absurd hnever hr)
    rw [docAfter_reminder]
    exact complete_reminder hs hd ht

end Operations

/-! ## Runs -/

theorem step_wellFormed (s : Phone) (e : Event) (s' : Phone) (hs : s.world.WellFormed)
    (h : step z s e = some s') : s'.world.WellFormed := by
  cases e with
  | create docId uid data =>
      obtain ⟨-, htasks, -⟩ := step_create h
      apply hs.update htasks
      intro d hd
      rw [← Option.some.inj hd]
      exact newTask_wellFormed z uid docId data
  | operate docId op =>
      obtain ⟨d, next, hd, -, htasks, -⟩ := step_operate hs h
      exact hs.update htasks fun d' hd' =>
        TaskOp.doc_wellFormed z (s.clock z) ((hs docId d hd).read docId) (hs docId d hd) hd'
  | clearRecord =>
      cases h
      intro id d hd
      exact absurd hd (by simp [clearRecord, perform, exec])
  | tick elapsed =>
      cases h
      exact hs

/-- One step keeps a clean state clean exactly when it meets the guard. -/
theorem clean_step_iff (s : Phone) (e : Event) (s' : Phone) (hwf : s.world.WellFormed)
    (hs : Clean s) (h : step z s e = some s') : Clean s' ↔ Guard z s e := by
  cases e with
  | create id uid data =>
      obtain ⟨hfresh, htasks, hpending⟩ := step_create h
      -- nothing is pending for a document that is new
      have hnone : s.world.pending id = none := by
        rw [Option.eq_none_iff_forall_ne_some]
        intro t ht
        obtain ⟨d, hd, -⟩ := hs id t ht
        rw [hfresh] at hd
        exact absurd hd (by simp)
      refine iff_of_true ?_ trivial
      rw [clean_iff_at hs htasks (fun x hx => by rw [hpending]; exact announced_of_ne _ hx)]
      intro t ht
      refine ⟨_, rfl, rfl, fun hnever => ?_⟩
      rw [hpending, announced_of_not _ (not_toCome_of_never hnever), hnone] at ht
      exact absurd ht (by simp)
  | clearRecord =>
      cases h
      -- the tasks are gone, so whatever is pending is nobody's
      have hgone : Clean { s with
            world := (perform (exec AppTask.id z (s.clock z)) clearRecord s.world).1 }
          ↔ ∀ id, s.world.pending id = none := by
        simp [Clean, clearRecord, perform, exec, ← Option.eq_none_iff_forall_ne_some]
      exact hgone
  | tick elapsed =>
      cases h
      exact iff_of_true hs trivial
  | operate id op =>
      obtain ⟨d, next, hd, hnext, htasks, hpending⟩ := step_operate hwf h
      have hguard : Guard z s (.operate id op) ↔ OpGuard z s id d op := by
        refine ⟨fun hg => hg d hd, fun hg d' hd' => ?_⟩
        rw [hd, Option.some.injEq] at hd'
        rwa [← hd']
      rw [hguard, clean_iff_at hs htasks
        (fun x hx => by rw [hpending]; exact pending_of_ne op next _ hx), hpending]
      cases op with
      | edit data => exact edit_clean_iff hs hd data next
      | complete => exact complete_clean_iff hs hd (hwf id d hd) hnext
      | deleteFromDetails =>
          exact iff_of_true (fun t ht => ⟨d, rfl, hs.pending hd (retracted_le _ ht)⟩) trivial
      | delete =>
          -- the document is gone, so nothing may be left
          rw [OpGuard, ← retracted_iff]
          refine forall_congr' fun t => ⟨fun himp ht => ?_, fun hne ht => absurd ht hne⟩
          obtain ⟨d', hd', -⟩ := himp ht
          exact absurd hd' (by simp [TaskOp.doc])

/-- **Reminders end with their tasks** in exactly the runs whose steps all
retract what they end: from any clean state, in any zone. -/
theorem clean_iff_retracts (z : Zone) (s : Phone) (hwf : s.world.WellFormed) (hs : Clean s)
    (es : List Event) : Always (step z) Clean s es ↔ Meets (step z) (Guard z) s es :=
  always_iff_meets (fun s e s' hwf _ h _ => step_wellFormed s e s' hwf h) clean_step_iff hwf hs es

/-- Noon on 1 June 2022, with nothing stored and nothing pending. -/
def newPhone : Phone := ⟨.empty, 1654084800000000⟩

/-- A one-off task for two o'clock, with a reminder on time. -/
def createAtTwo : Event :=
  .create "doc" "uid" (.timed 1654041600000 1654092000000 .never .ontime)

/-- The task is completed at three: its reminder stays pending. -/
theorem not_always_clean :
    ¬ Always (step utc) Clean newPhone
        [createAtTwo, .tick 10800000000, .operate "doc" .complete] := by
  intro h
  have hend := h _ (List.prefix_refl _) _ rfl
  obtain ⟨d, hd, hopen, -⟩ := hend "doc" (.ofMillis 1654092000000) rfl
  cases hd
  exact absurd hopen (by decide)

theorem clean_iff_retracts_newPhone :
    Always (step utc) Clean newPhone [createAtTwo, .operate "doc" .complete]
      ↔ Meets (step utc) (Guard utc) newPhone [createAtTwo, .operate "doc" .complete] :=
  clean_iff_retracts utc newPhone (fun _ _ h => absurd h (by simp [newPhone, World.empty]))
    (fun _ _ h => absurd h (by simp [newPhone, World.empty])) _

end AquaFocus.Reminders
