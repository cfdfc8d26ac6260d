/-
The operations on a stored task, and the notification addresses they use.

Every operation of the screens starts from a task read back from the store, so
its id is the document's. The one exception is creation, which announces the
task from the map it just stored, whose id is the form's own (`AppTask.fromMap`).
The plugin's address is a hash of the id, so a reminder scheduled at creation is
found again by a later operation exactly when the two ids hash alike
(`laterAddresses_iff`).
-/
import AquaFocus.Completion

set_option autoImplicit false

open Dart Calls

namespace AquaFocus

/-! ## Operations -/

/-- `_onDelete` of the lists and the calendar. -/
def deleteTask (z : Zone) (c : Clock) (task : AppTask) : List Call :=
  .removeItem task.id :: removeNotification z c task

/-- The confirmed delete button of the details page. -/
def deleteFromDetails (z : Zone) (c : Clock) (task : AppTask) : List Call :=
  removeNotification z c task

inductive TaskOp
  | edit (data : FormData)
  | complete
  | delete
  | deleteFromDetails

def TaskOp.calls (z : Zone) (c : Clock) (task : AppTask) : TaskOp → List Call
  | .edit data => editTask z c task data
  | .complete => completion z c task
  | .delete => deleteTask z c task
  | .deleteFromDetails => AquaFocus.deleteFromDetails z c task

/-- Whether the screens offer an operation: a completed task is not completed again. -/
def TaskOp.offered (d : TaskDoc) : TaskOp → Bool
  | .complete => !d.isCompleted
  | _ => true

variable {κ : Type} [DecidableEq κ]

/-- A handler starts with its own variables unset. -/
def World.fresh (w : World κ) : World κ := { w with event := none, currMoney := 0 }

/-- An operation on the task of document `docId`, as it is stored. -/
def performOp (key : AppTask → κ) (z : Zone) (docId : String) (e : Clock × TaskOp) (w : World κ) :
    World κ :=
  match w.tasks docId with
  | none => w
  | some d => (perform (exec key z e.1) (e.2.calls z e.1 (.fromDS docId d)) w.fresh).1

/-- The addresses an operation uses to cancel and to schedule. -/
def addressesOf (key : AppTask → κ) (z : Zone) (docId : String) (e : Clock × TaskOp)
    (w : World κ) : List κ :=
  match w.tasks docId with
  | none => []
  | some d =>
      trace (exec key z e.1) (addressed key z e.1) (e.2.calls z e.1 (.fromDS docId d)) w.fresh

/-- The addresses a run of operations uses. -/
def laterAddresses (key : AppTask → κ) (z : Zone) (docId : String) :
    List (Clock × TaskOp) → World κ → List κ
  | [], _ => []
  | e :: es, w => addressesOf key z docId e w ++ laterAddresses key z docId es
      (performOp key z docId e w)

/-! ## What an operation does -/

/-- The document an operation leaves, when the task's next date is `next`. -/
def TaskOp.doc (z : Zone) (c : Clock) (task : AppTask) (d : TaskDoc) (next : Option DateTime) :
    TaskOp → Option TaskDoc
  | .edit data => some ((TaskUpdate.form data).apply d)
  | .complete => some (docAfter z c task d next)
  | .delete => none
  | .deleteFromDetails => some d

/-- The task an operation announces, if it announces one. -/
def TaskOp.announces (z : Zone) (c : Clock) (task : AppTask) (d : TaskDoc)
    (next : Option DateTime) : TaskOp → Option AppTask
  | .edit data => some (.fromDS task.id ((TaskUpdate.form data).apply d))
  | .complete =>
      if next.isSome ∧ task.hasTime then some (.fromDS task.id (docAfter z c task d next)) else none
  | .delete | .deleteFromDetails => none

/-- Every operation retracts the task's reminder; what is pending then is up to
what it announces. -/
def TaskOp.pending (key : AppTask → κ) (z : Zone) (c : Clock) (task : AppTask) (d : TaskDoc)
    (next : Option DateTime) (op : TaskOp) (pending : κ → Option DateTime) :
    κ → Option DateTime :=
  match op.announces z c task d next with
  | none => retracted key z c task pending
  | some event => announced key z c event (retracted key z c task pending)

theorem TaskOp.doc_wellFormed (z : Zone) (c : Clock) {task : AppTask} {d d' : TaskDoc}
    {next : Option DateTime} {op : TaskOp} (ht : task.WellFormed) (hd : d.WellFormed)
    (h : op.doc z c task d next = some d') : d'.WellFormed := by
  cases op with
  | edit data => exact Option.some.inj h ▸ hd.form data
  | complete => exact Option.some.inj h ▸ docAfter_wellFormed ht hd next
  | delete => exact absurd h (by simp [TaskOp.doc])
  | deleteFromDetails => exact Option.some.inj h ▸ hd

/-- Every stored document is well formed. -/
def World.WellFormed (w : World κ) : Prop := ∀ id d, w.tasks id = some d → d.WellFormed

omit [DecidableEq κ] in
theorem World.WellFormed.update {w w' : World κ} (h : w.WellFormed) {id : String}
    {o : Option TaskDoc} (htasks : w'.tasks = Function.update w.tasks id o)
    (ho : ∀ d, o = some d → d.WellFormed) : w'.WellFormed := by
  intro x d hd
  rw [htasks] at hd
  by_cases hx : x = id
  · rw [hx, Function.update_self] at hd
    exact ho d hd
  · rw [Function.update_of_ne hx] at hd
    exact h x d hd

/-- **What an operation does** to the task of a stored document. -/
theorem performOp_spec (key : AppTask → κ) (z : Zone) {docId : String} (e : Clock × TaskOp)
    {w : World κ} {d : TaskDoc} (hw : w.tasks docId = some d) (hd : d.WellFormed) :
    ∃ next, nextTimeOf z e.1 (.fromDS docId d) = .ok next
      ∧ (performOp key z docId e w).tasks
        = Function.update w.tasks docId (e.2.doc z e.1 (.fromDS docId d) d next)
      ∧ (performOp key z docId e w).pending
        = e.2.pending key z e.1 (.fromDS docId d) d next w.pending := by
  obtain ⟨c, op⟩ := e
  have ht : (AppTask.fromDS docId d).WellFormed := hd.read docId
  -- the task is the stored one, so its id is the document's
  have hfresh : w.fresh.tasks (AppTask.fromDS docId d).id = some d := hw
  obtain ⟨next, w', hnext, hp, htasks, -, hpending⟩ := completion_spec key z c hfresh hd ht
  refine ⟨next, hnext, ?_⟩
  unfold performOp TaskOp.pending
  simp only [hw]
  cases op with
  | complete =>
      simp only [TaskOp.calls, hp]
      refine ⟨htasks, hpending.trans ?_⟩
      unfold pendingAfter TaskOp.announces
      split <;> rfl
  | edit data =>
      obtain ⟨v, hedit, hvtasks, -, hvpending⟩ :=
        editTask_spec (z := z) (c := c) key hfresh hd ht data
      simp only [TaskOp.calls, hedit]
      exact ⟨hvtasks, hvpending⟩
  | delete =>
      simp only [TaskOp.calls, deleteTask]
      rw [perform_cons_ok _ rfl, perform_removeNotification ht]
      exact ⟨rfl, rfl⟩
  | deleteFromDetails =>
      simp only [TaskOp.calls, deleteFromDetails]
      rw [perform_removeNotification ht]
      exact ⟨(Function.update_eq_self_iff.mpr hw.symm).symm, rfl⟩

/-! ## Calls about one task -/

/-- A call about the task with this id and owner, or about none. -/
def Call.Concerns (docId : String) (owner : Option String) : Call → Prop
  | .create .. | .clearTasks => False
  | .updateData id _ | .getSingle id => id = docId
  | .cancel task | .scheduleNotification task _ => task.id = docId ∧ task.userId = owner
  | _ => True

/-- What such calls keep: the document's owner, and that of the task read from it. -/
structure World.OwnedBy (docId : String) (owner : Option String) (w : World κ) : Prop where
  stored : ∀ d, w.tasks docId = some d → d.userId = owner
  event : ∀ e, w.event = some e → e.id = docId ∧ e.userId = owner

theorem userId_apply (update : TaskUpdate) (d : TaskDoc) : (update.apply d).userId = d.userId := by
  cases update <;> rfl

variable {key : AppTask → κ} {z : Zone} {c : Clock} {docId : String} {owner : Option String}

theorem World.OwnedBy.exec {call : Call} {w w' : World κ} (hcall : call.Concerns docId owner)
    (h : w.OwnedBy docId owner) (hexec : exec key z c call w = .ok w') :
    w'.OwnedBy docId owner := by
  refine ⟨fun d hd => ?_, fun e he => ?_⟩
  · rcases exec_document hexec docId with hsame | hgone | ⟨data, rfl, -⟩
      | ⟨update, d', rfl, hd', hnew⟩
    · exact h.stored d (hsame ▸ hd)
    · rw [hgone] at hd
      exact absurd hd (by simp)
    · exact absurd hcall id
    · rw [hnew, Option.some.injEq] at hd
      rw [← hd, userId_apply]
      exact h.stored d' hd'
  · rcases exec_event hexec with hsame | ⟨id, rfl, hread⟩
    · exact h.event e (hsame ▸ he)
    · obtain rfl : id = docId := hcall
      rw [hread] at he
      obtain ⟨d, hd, rfl⟩ := Option.map_eq_some_iff.mp he
      exact ⟨rfl, h.stored d hd⟩

omit [DecidableEq κ] in
/-- The address such a call uses is that of the task with this id and owner. -/
theorem addressed_of_concerns {call : Call} {w : World κ} (hcall : call.Concerns docId owner)
    (h : w.OwnedBy docId owner) :
    ∀ x ∈ addressed key z c call w, ∃ task : AppTask,
      x = key task ∧ task.id = docId ∧ task.userId = owner := by
  intro x hx
  cases call with
  | cancel task => exact ⟨task, List.mem_singleton.mp hx, hcall⟩
  | scheduleNotification task => exact ⟨task, List.mem_singleton.mp hx, hcall⟩
  | addNotification =>
      simp only [addressed] at hx
      cases he : w.event with
      | none =>
          rw [he] at hx
          exact absurd hx List.not_mem_nil
      | some event =>
          simp only [he] at hx
          split at hx
          · exact ⟨event, List.mem_singleton.mp hx, h.event event he⟩
          · exact absurd hx List.not_mem_nil
  | _ => exact absurd hx List.not_mem_nil

section Concerns

variable {task : AppTask} (hid : task.id = docId) (howner : task.userId = owner)

include hid howner

theorem concerns_removeNotification :
    ∀ call ∈ removeNotification z c task, call.Concerns docId owner := by
  intro call hcall
  rcases mem_removeNotification hcall with rfl | ⟨fault, rfl⟩
  · exact ⟨hid, howner⟩
  · trivial

omit howner in
theorem concerns_reschedule (owner : Option String) (s : ℤ) (next : Option DateTime) :
    ∀ call ∈ reschedule z c task s next, call.Concerns docId owner := by
  intro call hcall
  cases next with
  | none => exact absurd hcall List.not_mem_nil
  | some t =>
      unfold reschedule remind at hcall
      by_cases ht : task.hasTime = true
      · rw [if_pos ht] at hcall
        simp only [List.mem_cons, List.not_mem_nil, or_false] at hcall
        rcases hcall with rfl | rfl | rfl
        · exact hid
        · exact hid
        · trivial
      · rw [if_neg ht, List.mem_singleton] at hcall
        rw [hcall]
        exact hid

theorem concerns_completion : ∀ call ∈ completion z c task, call.Concerns docId owner := by
  intro call hcall
  have hremove := concerns_removeNotification (z := z) (c := c) hid howner
  have hbranch := concerns_reschedule (z := z) (c := c) hid owner
  simp only [completion, processCompletion, backButton, List.mem_append, List.mem_cons] at hcall
  rcases hcall with (hcall | rfl | hcall) | hcall
  · exact hremove call hcall
  · exact hid
  · cases hnext : nextTimeOf z c task with
    | error fault =>
        rw [hnext, List.mem_singleton] at hcall
        rw [hcall]
        trivial
    | ok next =>
        simp only [hnext] at hcall
        by_cases hpaid : giveMoney z c task = true
        · rw [if_pos hpaid, List.mem_cons, List.mem_append, List.mem_singleton] at hcall
          rcases hcall with rfl | hcall | rfl
          · trivial
          · exact hbranch _ next call hcall
          · trivial
        · rw [if_neg hpaid, List.mem_append, List.mem_singleton] at hcall
          rcases hcall with hcall | rfl
          · exact hbranch _ next call hcall
          · trivial
  · by_cases hpaid : giveMoney z c task = true
    · rw [if_pos hpaid] at hcall
      simp only [List.mem_cons, List.not_mem_nil, or_false] at hcall
      rcases hcall with rfl | rfl <;> trivial
    · rw [if_neg hpaid] at hcall
      exact absurd hcall List.not_mem_nil

/-- An operation makes calls about its own task only. -/
theorem concerns_calls (op : TaskOp) : ∀ call ∈ op.calls z c task, call.Concerns docId owner := by
  have hremove := concerns_removeNotification (z := z) (c := c) hid howner
  cases op with
  | complete => exact concerns_completion hid howner
  | deleteFromDetails => exact hremove
  | delete =>
      intro call hcall
      rcases List.mem_cons.mp hcall with rfl | hcall
      · trivial
      · exact hremove call hcall
  | edit data =>
      intro call hcall
      rcases List.mem_append.mp hcall with hcall | hcall
      · exact hremove call hcall
      · simp only [List.mem_cons, List.not_mem_nil, or_false] at hcall
        rcases hcall with rfl | rfl | rfl
        · exact hid
        · exact hid
        · trivial

end Concerns

/-! ## The addresses of a run -/

/-- Every later operation uses addresses of tasks with the document's id and owner. -/
theorem laterAddresses_of (es : List (Clock × TaskOp)) {w : World κ}
    (h : ∀ d, w.tasks docId = some d → d.userId = owner) :
    ∀ x ∈ laterAddresses key z docId es w, ∃ task : AppTask,
      x = key task ∧ task.id = docId ∧ task.userId = owner := by
  induction es generalizing w with
  | nil =>
      intro x hx
      exact absurd hx List.not_mem_nil
  | cons e es ih =>
      intro x hx
      rw [laterAddresses, List.mem_append] at hx
      unfold addressesOf performOp at hx
      cases hd : w.tasks docId with
      | none =>
          simp only [hd] at hx
          rcases hx with hx | hx
          · exact absurd hx List.not_mem_nil
          · exact ih (fun d hd' => h d hd') x hx
      | some d =>
          simp only [hd] at hx
          have hfresh : w.fresh.OwnedBy docId owner :=
            ⟨h, fun e he => absurd he (by simp [World.fresh])⟩
          have hcalls : ∀ call ∈ e.2.calls z e.1 (.fromDS docId d), call.Concerns docId owner :=
            concerns_calls rfl (h d hd) e.2
          rcases hx with hx | hx
          · exact forall_mem_trace
              (fun call hcall s hs => addressed_of_concerns (hcalls call hcall) hs)
              (fun call hcall s s' hs hexec => hs.exec (hcalls call hcall) hexec) hfresh x hx
          · have hkept : (perform (exec key z e.1) (e.2.calls z e.1 (.fromDS docId d))
                w.fresh).1.OwnedBy docId owner :=
              perform_invariant
                (fun call hcall s s' hs hexec => hs.exec (hcalls call hcall) hexec) hfresh
            exact ih hkept.stored x hx

theorem hashCode_of {hash : Option String → BitVec 64} {task : AppTask} (hid : task.id = docId)
    (howner : task.userId = owner) : task.hashCode hash = hash (some docId) ^^^ hash owner := by
  rw [AppTask.hashCode, hid, howner]

/-- **One address for a task.** For a task created through the form, every later
operation uses the address its reminder was scheduled under exactly when there
was nothing to schedule, or the form's id and the document's hash alike. -/
theorem laterAddresses_iff (hash : Option String → BitVec 64) (z : Zone) (c : Clock)
    (uid uuid docId : String) (data : FormData) (w : World (BitVec 64)) :
    (∀ t, isScheduledEvent z c (.fromMap (newTask z uid uuid data)) = .ok (some t) →
      ∀ es, ∀ x ∈ laterAddresses (AppTask.hashCode hash) z docId es
          (perform (exec (AppTask.hashCode hash) z c)
            (createTask z c docId (newTask z uid uuid data)) w).1,
        x = (AppTask.fromMap (newTask z uid uuid data)).hashCode hash)
      ↔ isScheduledEvent z c (.fromMap (newTask z uid uuid data)) = .ok none
        ∨ hash (some uuid) = hash (some docId) := by
  have hwf := newTask_wellFormed z uid uuid data
  have hmap : (AppTask.fromMap (newTask z uid uuid data)).hashCode hash
      = hash (some uuid) ^^^ hash (some uid) := hashCode_of rfl rfl
  rw [createTask_spec (AppTask.hashCode hash) docId hwf]
  constructor
  · intro h
    obtain ⟨o, ho⟩ := isScheduledEvent_ok z c (hwf.read uuid)
    cases o with
    | none => exact .inl ho
    | some t =>
        -- deleting the task at once cancels under the document's id
        have hds : isScheduledEvent z c (.fromDS docId (newTask z uid uuid data))
            = .ok (some t) := ho
        have haddress : (AppTask.fromDS docId (newTask z uid uuid data)).hashCode hash
            ∈ laterAddresses (AppTask.hashCode hash) z docId [(c, .deleteFromDetails)]
              { w with
                tasks := Function.update w.tasks docId (some (newTask z uid uuid data))
                pending := announced (AppTask.hashCode hash) z c
                  (.fromMap (newTask z uid uuid data)) w.pending } := by
          simp [laterAddresses, addressesOf, TaskOp.calls, deleteFromDetails, removeNotification,
            hds, trace, addressed, exec]
        have heq := h t ho _ _ haddress
        rw [hmap, hashCode_of rfl rfl] at heq
        exact .inr ((BitVec.xor_left_inj _).mp heq).symm
  · rintro (hnone | hhash) t ht es x hx
    · rw [hnone] at ht
      exact absurd (Except.ok.inj ht) (by simp)
    · -- later operations know the task by the document's id and its owner's
      have howned : ∀ d, Function.update w.tasks docId (some (newTask z uid uuid data)) docId
          = some d → d.userId = some uid := by
        intro d hd
        rw [Function.update_self, Option.some.injEq] at hd
        rw [← hd]
        rfl
      obtain ⟨task, rfl, hid, howner⟩ := laterAddresses_of es howned x hx
      rw [hmap, hashCode_of hid howner, hhash]

/-- The hash of a nullable string, one character at a time, on 30 bits. -/
def oneAtATime : Option String → BitVec 64
  | none => 2011
  | some s =>
      let mixed : BitVec 32 := s.toList.foldl (fun h ch =>
        let h := h + BitVec.ofNat 32 ch.toNat
        let h := h + (h <<< 10)
        h ^^^ (h >>> 6)) 0
      let mixed := mixed + (mixed <<< 3)
      let mixed := mixed ^^^ (mixed >>> 11)
      let mixed := (mixed + (mixed <<< 15)) &&& 0x3FFFFFFF#32
      (if mixed = 0 then 1 else mixed).setWidth 64

/-- A reminder is scheduled at noon for two o'clock; deleting the task cancels
under another address. -/
theorem laterAddresses_ne :
    isScheduledEvent utc (noonOfJune 1) (.fromMap (swimAtTwo .never))
        = .ok (some (.ofMillis 1654092000000))
      ∧ ∃ x ∈ laterAddresses (AppTask.hashCode oneAtATime) utc "doc" [(noonOfJune 1, .delete)]
          (perform (exec (AppTask.hashCode oneAtATime) utc (noonOfJune 1))
            (createTask utc (noonOfJune 1) "doc" (swimAtTwo .never)) .empty).1,
        x ≠ (AppTask.fromMap (swimAtTwo .never)).hashCode oneAtATime :=
  ⟨by rfl, (AppTask.fromDS "doc" (swimAtTwo .never)).hashCode oneAtATime, by decide, by decide⟩

end AquaFocus
