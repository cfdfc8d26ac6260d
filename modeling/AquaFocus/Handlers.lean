/-
All the handlers of a task, overlapping.

A screen reads a task once and keeps its copy, so an operation may begin on a
task that has been edited, completed or deleted since, and while other handlers
are still at their calls. Here the handlers of all operations interleave call by
call, and begin at any time, on any copy a screen has read. The id of a new
document is known to nobody before the document is stored, so Save writes it as
it begins.

The writes are updates, never puts, and so no handler brings a deleted task back:
its next write throws instead, and that is the only way a call throws
(`deleted_for_good`). What a throw costs is the coins its handler had still to
credit; the books balance with these (`coins_accounted`).
-/
import AquaFocus.Overlap
import AquaFocus.Lib.Tally

set_option autoImplicit false

open Dart Calls Runs

namespace AquaFocus.Handlers

open Overlap (seenBy due credit ifEventCompleted)

/-! ## The app at work -/

/-- A handler under way, and the document it is about. -/
structure Running where
  docId : String
  handler : Overlap.Handler

structure System (κ : Type) where
  world : World κ
  running : List Running
  /-- the tasks the screens have read -/
  shown : List AppTask
  /-- the ids that documents have had -/
  used : List String

inductive Event
  | load (docId : String)
  /-- an operation on the `i`th task that was read -/
  | operate (z : Zone) (c : Clock) (i : ℕ) (op : TaskOp)
  | save (z : Zone) (c : Clock) (docId uid uuid : String) (data : FormData)
  /-- `clearRecord` has its list of the stored tasks -/
  | clearRecord (z : Zone) (c : Clock)
  /-- the next call of the `i`th handler -/
  | next (i : ℕ)

variable {κ : Type} [DecidableEq κ] (key : AppTask → κ)

/-- What an operation starts. A tap on a task shown as completed starts nothing. -/
def started (z : Zone) (c : Clock) (task : AppTask) : TaskOp → List Call
  | .complete => ifEventCompleted z c task
  | op => op.calls z c task

/-- A handler that has not made a call yet. -/
def Running.new (docId : String) (z : Zone) (c : Clock) (calls : List Call) : Running :=
  ⟨docId, ⟨z, c, calls, none, 0⟩⟩

def System.begin (s : System κ) (rs : List Running) : System κ :=
  { s with running := s.running ++ rs }

/-- The first call of Save, for a new task. -/
def System.create (s : System κ) (docId : String) (data : TaskDoc) : System κ :=
  { s with
    world := { s.world with tasks := Function.update s.world.tasks docId (some data) }
    used := docId :: s.used }

/-- The deletions of `clearRecord`. It awaits its list, but none of them, so they
are handlers of their own. -/
def System.deletions (s : System κ) (z : Zone) (c : Clock) : List Running :=
  (s.used.filter fun id => (s.world.tasks id).isSome).map fun id => .new id z c [.removeItem id]

/-- A handler's next call. -/
def act (w : World κ) (r : Running) (u : Unit) : Option (World κ × Running) :=
  (Overlap.act key w r.handler u).map fun x => (x.1, { r with handler := x.2 })

def step (s : System κ) : Event → Option (System κ)
  | .load docId =>
      (s.world.tasks docId).map fun d => { s with shown := s.shown ++ [.fromDS docId d] }
  | .operate z c i op =>
      s.shown[i]?.map fun task => s.begin [.new task.id z c (started z c task op)]
  | .save z c docId uid uuid data =>
      if docId ∈ s.used then none
      else
        let task := newTask z uid uuid data
        some ((s.create docId task).begin [.new docId z c (addNotification z c (.fromMap task))])
  | .clearRecord z c => some (s.begin (s.deletions z c))
  | .next i =>
      (Interleave.step (act key) ⟨s.world, s.running⟩ (i, ())).map fun c =>
        { s with world := c.shared, running := c.clients }

/-- The handler whose next call throws, and what it throws. -/
def thrown (s : System κ) : Event → Option (Running × Fault)
  | .next i =>
      s.running[i]?.bind fun r =>
        r.handler.calls.head?.bind fun call =>
          match exec key r.handler.zone r.handler.clock call (seenBy s.world r.handler) with
          | .ok _ => none
          | .error fault => some (r, fault)
  | _ => none

/-- The document had this id, and is gone. -/
def Deleted (s : System κ) (id : String) : Prop := id ∈ s.used ∧ s.world.tasks id = none

/-- Nothing is under way, and nothing shown. -/
structure Start (s : System κ) : Prop where
  running : s.running = []
  shown : s.shown = []
  wellFormed : s.world.WellFormed
  used : ∀ id, (s.world.tasks id).isSome = true → id ∈ s.used

/-! ## The calls of a handler -/

/-- What a handler may call about its document: it announces only what it has
read (`fetched`), deletes only if that is its business (`deletes`), keeps the
document well formed, and takes no coins away. -/
def Allowed (docId : String) (deletes fetched : Bool) : Call → Prop
  | .updateData id update =>
      id = docId ∧ ∀ d : TaskDoc, d.WellFormed → (update.apply d).WellFormed
  | .getSingle id => id = docId
  | .removeItem id => id = docId ∧ deletes = true
  | .addNotification => fetched = true
  | .addMoney amt => 0 ≤ amt
  | .create .. | .clearTasks | .throws _ => False
  | _ => True

def reads : Call → Bool
  | .getSingle _ => true
  | _ => false

def Sound (docId : String) (deletes : Bool) : Bool → List Call → Prop
  | _, [] => True
  | fetched, call :: calls =>
      Allowed docId deletes fetched call ∧ Sound docId deletes (fetched || reads call) calls

variable {docId : String} {del b : Bool} {z : Zone} {c : Clock} {task : AppTask}

theorem sound_append {xs ys : List Call} :
    Sound docId del b (xs ++ ys)
      ↔ Sound docId del b xs ∧ Sound docId del (b || xs.any reads) ys := by
  induction xs generalizing b with
  | nil => simp [Sound]
  | cons x xs ih =>
      simp only [List.cons_append, Sound, ih, List.any_cons, Bool.or_assoc]
      exact and_assoc.symm

theorem sound_removeNotification (h : task.WellFormed) :
    Sound docId del b (removeNotification z c task) := by
  obtain ⟨o, ho⟩ := isScheduledEvent_ok z c h
  unfold removeNotification
  rw [ho]
  cases o with
  | none => trivial
  | some t => exact ⟨trivial, trivial⟩

theorem sound_addNotification (h : task.WellFormed) :
    Sound docId del b (addNotification z c task) := by
  obtain ⟨o, ho⟩ := isScheduledEvent_ok z c h
  unfold addNotification
  rw [ho]
  cases o with
  | none => trivial
  | some t => exact ⟨trivial, trivial⟩

theorem sound_reschedule (z : Zone) (c : Clock) (task : AppTask) {s : ℤ} (hs : 0 ≤ s)
    (next : Option DateTime) : Sound task.id del b (reschedule z c task s next) := by
  cases next with
  | none => trivial
  | some t =>
      refine ⟨⟨rfl, fun d hd => hd.reschedule _ hs _ _⟩, ?_⟩
      unfold remind
      by_cases htime : task.hasTime = true
      · -- the reminder is announced from what the read before it has found
        rw [if_pos htime]
        exact ⟨rfl, Bool.or_true _, trivial⟩
      · rw [if_neg htime]
        trivial

theorem sound_completion (z : Zone) (c : Clock) (h : task.WellFormed) :
    Sound task.id del false (completion z c task) := by
  obtain ⟨next, hnext⟩ := nextTimeOf_ok (z := z) (c := c) h
  have hs := h.streak_nonneg
  rw [completion_of_ok hnext, sound_append]
  refine ⟨sound_removeNotification h, ⟨rfl, fun d hd => hd.completed⟩, ?_⟩
  by_cases hpaid : giveMoney z c task = true
  · -- the credit comes last, when the dialog is closed
    rw [if_pos hpaid, List.cons_append, List.append_assoc]
    refine ⟨trivial, sound_append.mpr ⟨sound_reschedule z c task (by omega) next, ?_⟩⟩
    exact ⟨trivial, trivial, (moneyAdded_pos h).le, trivial⟩
  · rw [if_neg hpaid]
    exact sound_append.mpr ⟨sound_reschedule z c task hs next, trivial, trivial⟩

def isDelete : TaskOp → Bool
  | .delete => true
  | _ => false

/-- Every operation keeps to its task, and only one deletes. -/
theorem sound_started (z : Zone) (c : Clock) (h : task.WellFormed) {op : TaskOp}
    (hdel : isDelete op = true → del = true) : Sound task.id del false (started z c task op) := by
  cases op with
  | edit data =>
      apply sound_append.mpr
      refine ⟨sound_removeNotification h, ⟨rfl, fun d hd => hd.form data⟩, rfl, ?_, trivial⟩
      exact Bool.or_true _
  | complete =>
      unfold started ifEventCompleted
      by_cases hdone : task.isCompleted = true
      · rw [if_pos hdone]
        trivial
      · rw [if_neg hdone]
        exact sound_completion z c h
  | delete => exact ⟨⟨rfl, hdel rfl⟩, sound_removeNotification h⟩
  | deleteFromDetails => exact sound_removeNotification h

/-! ## One call -/

variable {key} {w w' : World κ} {call : Call}

/-- What is missing stays missing. -/
theorem exec_missing (hcall : Allowed docId del b call) (h : exec key z c call w = .ok w')
    {id : String} (hid : w.tasks id = none) : w'.tasks id = none := by
  rcases exec_document h id with heq | hnone | ⟨data, rfl, -⟩ | ⟨update, d, -, hd, -⟩
  · rw [heq, hid]
  · exact hnone
  · -- a document is created only as Save begins
    exact hcall.elim
  · -- an update of a missing document throws
    rw [hid] at hd
    cases hd

theorem exec_wellFormed (hcall : Allowed docId del b call) (h : exec key z c call w = .ok w')
    (hw : w.WellFormed) : w'.WellFormed := by
  intro id d' hd'
  rcases exec_document h id with heq | hnone | ⟨data, rfl, -⟩ | ⟨update, d, rfl, hd, hupdate⟩
  · exact hw id d' (heq ▸ hd')
  · rw [hnone] at hd'
    cases hd'
  · exact hcall.elim
  · rw [hupdate, Option.some.injEq] at hd'
    exact hd' ▸ hcall.2 d (hw id d hd)

theorem exec_event_wellFormed (h : exec key z c call w = .ok w') (hw : w.WellFormed)
    (hevent : ∀ event, w.event = some event → event.WellFormed) :
    ∀ event, w'.event = some event → event.WellFormed := by
  intro event he
  rcases exec_event h with heq | ⟨id, -, hread⟩
  · exact hevent event (heq ▸ he)
  · rw [hread, Option.map_eq_some_iff] at he
    obtain ⟨d, hd, rfl⟩ := he
    exact (hw id d hd).read id

/-- A handler that has read and has no task has found its document missing. -/
theorem exec_fetched (hcall : Allowed docId del b call) (h : exec key z c call w = .ok w')
    (hfetched : b = true → w.event = none → w.tasks docId = none) :
    (b || reads call) = true → w'.event = none → w'.tasks docId = none := by
  intro hb hnone
  apply exec_missing hcall h
  rcases exec_event h with heq | ⟨id, rfl, hread⟩
  · rcases Bool.or_eq_true_iff.mp hb with hb | hreads
    · exact hfetched hb (heq ▸ hnone)
    · -- a read that left `event` as it was
      cases call with
      | getSingle id =>
          cases h
          have hid : id = docId := hcall
          exact hid ▸ Option.map_eq_none_iff.mp hnone
      | _ => cases hreads
  · have hid : id = docId := hcall
    rw [hread] at hnone
    exact hid ▸ Option.map_eq_none_iff.mp hnone

/-- A call throws only when the document is missing. -/
theorem exec_error (hcall : Allowed docId del b call) {fault : Fault}
    (hevent : ∀ event, w.event = some event → event.WellFormed)
    (hfetched : b = true → w.event = none → w.tasks docId = none)
    (h : exec key z c call w = .error fault) : w.tasks docId = none := by
  cases call with
  | updateData id update =>
      obtain ⟨rfl, -⟩ := hcall
      cases hd : w.tasks id with
      | none => rfl
      | some d =>
          rw [exec_updateData update hd] at h
          cases h
  | addNotification =>
      cases he : w.event with
      | none => exact hfetched hcall he
      | some event =>
          rw [exec_addNotification (hevent event he) he] at h
          cases h
  | throws => exact hcall.elim
  | _ => cases h

/-! ## One step -/

/-- A handler after a call, which leaves it its variables. -/
def Running.after (r : Running) (calls : List Call) (w : World κ) : Running :=
  ⟨r.docId, { r.handler with calls := calls, event := w.event, currMoney := w.currMoney }⟩

/-- A handler after a call that threw. -/
def Running.ended (r : Running) : Running := ⟨r.docId, { r.handler with calls := [] }⟩

variable {r r' : Running} {calls : List Call}

theorem act_of_ok (u : Unit) (hcalls : r.handler.calls = call :: calls)
    (h : exec key r.handler.zone r.handler.clock call (seenBy w r.handler) = .ok w') :
    act key w r u = some (w', r.after calls w') := by
  rw [act, Overlap.act_of_ok u hcalls h]
  rfl

theorem act_of_error (u : Unit) {fault : Fault} (hcalls : r.handler.calls = call :: calls)
    (h : exec key r.handler.zone r.handler.clock call (seenBy w r.handler) = .error fault) :
    act key w r u = some (w, r.ended) := by
  simp only [act, Overlap.act, hcalls, h]
  rfl

/-- **What the next call does**: it is made, or it throws and ends its handler. -/
theorem act_cases {u : Unit} (h : act key w r u = some (w', r')) :
    ∃ call calls, r.handler.calls = call :: calls
      ∧ (exec key r.handler.zone r.handler.clock call (seenBy w r.handler) = .ok w'
            ∧ r' = r.after calls w'
        ∨ ∃ fault,
            exec key r.handler.zone r.handler.clock call (seenBy w r.handler) = .error fault
            ∧ w' = w ∧ r' = r.ended) := by
  cases hcalls : r.handler.calls with
  | nil =>
      simp only [act, Overlap.act, hcalls] at h
      cases h
  | cons call calls =>
      refine ⟨call, calls, rfl, ?_⟩
      cases hexec : exec key r.handler.zone r.handler.clock call (seenBy w r.handler) with
      | ok v =>
          rw [act_of_ok u hcalls hexec] at h
          cases h
          exact .inl ⟨rfl, rfl⟩
      | error fault =>
          rw [act_of_error u hcalls hexec] at h
          cases h
          exact .inr ⟨fault, rfl, rfl, rfl⟩

/-- A handler stays with its document. -/
theorem docId_of_act {u : Unit} (h : act key w r u = some (w', r')) : r'.docId = r.docId := by
  obtain ⟨call, calls, -, ⟨-, rfl⟩ | ⟨fault, -, -, rfl⟩⟩ := act_cases h
  · rfl
  · rfl

section Step

variable {s s' : System κ} {r : Running} {i : ℕ}

/-- The handler `r` has moved, and left the account at `w`. -/
def System.moved (s : System κ) (i : ℕ) (w : World κ) (r : Running) : System κ :=
  { s with world := w, running := s.running.set i r }

theorem step_next (h : step key s (.next i) = some s') :
    ∃ r call calls, s.running[i]? = some r ∧ r.handler.calls = call :: calls
      ∧ ((∃ w', exec key r.handler.zone r.handler.clock call (seenBy s.world r.handler) = .ok w'
            ∧ thrown key s (.next i) = none ∧ s' = s.moved i w' (r.after calls w'))
        ∨ ∃ fault,
            exec key r.handler.zone r.handler.clock call (seenBy s.world r.handler) = .error fault
            ∧ thrown key s (.next i) = some (r, fault) ∧ s' = s.moved i s.world r.ended) := by
  obtain ⟨config, hconfig, rfl⟩ := Option.map_eq_some_iff.mp h
  obtain ⟨r, w', r', hr, hact, rfl⟩ := Interleave.step_cases hconfig
  have hr' : s.running[i]? = some r := hr
  obtain ⟨call, calls, hcalls, hcase⟩ := act_cases hact
  refine ⟨r, call, calls, hr', hcalls, ?_⟩
  simp only [thrown, hr', hcalls, Option.bind_some, List.head?_cons]
  rcases hcase with ⟨hexec, rfl⟩ | ⟨fault, hexec, rfl, rfl⟩
  · exact .inl ⟨w', hexec, by rw [hexec], rfl⟩
  · exact .inr ⟨fault, hexec, by rw [hexec], rfl⟩

/-- What holds of a handler under way. -/
structure Running.Sound (s : System κ) (r : Running) : Prop where
  used : r.docId ∈ s.used
  calls : ∃ b, Handlers.Sound r.docId true b r.handler.calls
    ∧ (b = true → r.handler.event = none → s.world.tasks r.docId = none)
  event : ∀ event, r.handler.event = some event → event.WellFormed

/-- What holds of every state of a run. -/
structure Inv (s : System κ) : Prop where
  wellFormed : s.world.WellFormed
  used : ∀ id, (s.world.tasks id).isSome = true → id ∈ s.used
  shown : ∀ task ∈ s.shown, task.WellFormed ∧ task.id ∈ s.used
  running : ∀ r ∈ s.running, r.Sound s

/-- What every step leaves as it is: ids stay used, and missing documents missing. -/
def Keeps (s s' : System κ) : Prop :=
  (∀ id ∈ s.used, id ∈ s'.used)
    ∧ ∀ id ∈ s.used, s.world.tasks id = none → s'.world.tasks id = none

omit [DecidableEq κ] in
theorem Keeps.trans {s'' : System κ} (h : Keeps s s') (h' : Keeps s' s'') : Keeps s s'' :=
  ⟨fun id hid => h'.1 id (h.1 id hid), fun id hid hnone => h'.2 id (h.1 id hid) (h.2 id hid hnone)⟩

omit [DecidableEq κ] in
theorem Running.Sound.keeps (h : r.Sound s) (hk : Keeps s s') : r.Sound s' := by
  obtain ⟨b, hcalls, hfetched⟩ := h.calls
  exact ⟨hk.1 _ h.used, ⟨b, hcalls, fun hb he => hk.2 _ h.used (hfetched hb he)⟩, h.event⟩

omit [DecidableEq κ] in
theorem Inv.start (h : Start s) : Inv s where
  wellFormed := h.wellFormed
  used := h.used
  shown task ht := by
    rw [h.shown] at ht
    cases ht
  running r hr := by
    rw [h.running] at hr
    cases hr

omit [DecidableEq κ] in
/-- What a call can do to the documents does no harm to the other handlers. -/
theorem Inv.moved (hs : Inv s) {w' : World κ} (hw' : w'.WellFormed)
    (hmissing : ∀ id, s.world.tasks id = none → w'.tasks id = none)
    (hr : r.Sound (s.moved i w' r)) : Keeps s (s.moved i w' r) ∧ Inv (s.moved i w' r) := by
  have hkeeps : Keeps s (s.moved i w' r) := ⟨fun id hid => hid, fun id _ => hmissing id⟩
  refine ⟨hkeeps, hw', fun id hid => hs.used id ?_, hs.shown, ?_⟩
  · rw [Option.isSome_iff_ne_none] at hid ⊢
    exact fun hnone => hid (hmissing id hnone)
  · exact Interleave.forall_mem_set i (fun q hq => (hs.running q hq).keeps hkeeps) hr

theorem Inv.next (hs : Inv s) (h : step key s (.next i) = some s') : Keeps s s' ∧ Inv s' := by
  obtain ⟨r, call, calls, hr, hcalls, hcase⟩ := step_next h
  have hsound := hs.running r (List.mem_of_getElem? hr)
  obtain ⟨b, hb, hfetched⟩ := hsound.calls
  rw [hcalls] at hb
  obtain ⟨hallowed, hrest⟩ := hb
  rcases hcase with ⟨w', hexec, -, rfl⟩ | ⟨fault, -, -, rfl⟩
  · -- what the handler has fetched goes on with the rest of its calls
    have hmissing : ∀ id, s.world.tasks id = none → w'.tasks id = none :=
      fun id => exec_missing (w := seenBy s.world r.handler) hallowed hexec
    apply hs.moved (exec_wellFormed hallowed hexec hs.wellFormed) hmissing
    exact ⟨hsound.used, ⟨_, hrest, exec_fetched hallowed hexec hfetched⟩,
      exec_event_wellFormed hexec hs.wellFormed hsound.event⟩
  · apply hs.moved hs.wellFormed fun id hnone => hnone
    exact ⟨hsound.used, ⟨false, trivial, fun h => by cases h⟩, hsound.event⟩

omit [DecidableEq κ] in
theorem Running.Sound.new {calls : List Call} (hid : docId ∈ s.used)
    (hcalls : Handlers.Sound docId true false calls) :
    Running.Sound s (.new docId z c calls) where
  used := hid
  calls := ⟨false, hcalls, fun h => by cases h⟩
  event _ h := by cases h

omit [DecidableEq κ] in
/-- Handlers that begin do no harm either. -/
theorem Inv.begin (hs : Inv s) {rs : List Running} (hrs : ∀ r ∈ rs, r.Sound s) :
    Keeps s (s.begin rs) ∧ Inv (s.begin rs) := by
  have hkeeps : Keeps s (s.begin rs) := ⟨fun id h => h, fun id _ h => h⟩
  refine ⟨hkeeps, hs.wellFormed, hs.used, hs.shown, fun q hq => Running.Sound.keeps ?_ hkeeps⟩
  rcases List.mem_append.mp hq with hq | hq
  · exact hs.running q hq
  · exact hrs q hq

omit [DecidableEq κ] in
theorem sound_deletions (s : System κ) (z : Zone) (c : Clock) :
    ∀ r ∈ s.deletions z c, r.Sound s := by
  intro r hr
  obtain ⟨id, hid, rfl⟩ := List.mem_map.mp hr
  exact .new (List.mem_filter.mp hid).1 ⟨⟨rfl, rfl⟩, trivial⟩

omit [DecidableEq κ] in
/-- A document under an id that was not used. -/
theorem Inv.create (hs : Inv s) {data : TaskDoc} (hnew : docId ∉ s.used) (hd : data.WellFormed) :
    Keeps s (s.create docId data) ∧ Inv (s.create docId data) := by
  -- no screen and no handler has the new id, so nothing that was missing comes back
  have hkeeps : Keeps s (s.create docId data) := by
    refine ⟨fun id hid => List.mem_cons_of_mem docId hid, fun id hid hnone => ?_⟩
    have hne : id ≠ docId := fun h => hnew (h ▸ hid)
    exact (Function.update_of_ne hne ..).trans hnone
  refine ⟨hkeeps, ?_, ?_, ?_, fun r hr => (hs.running r hr).keeps hkeeps⟩
  · exact hs.wellFormed.update rfl fun d h => Option.some.inj h ▸ hd
  · intro id hid
    by_cases heq : id = docId
    · exact heq ▸ List.mem_cons_self
    · have htasks : (s.create docId data).world.tasks id = s.world.tasks id :=
        Function.update_of_ne heq ..
      rw [htasks] at hid
      exact List.mem_cons_of_mem docId (hs.used id hid)
  · exact fun task ht => ⟨(hs.shown task ht).1, hkeeps.1 _ (hs.shown task ht).2⟩

/-- Every event keeps the documents well formed, and the missing ones missing. -/
theorem Inv.keeps {e : Event} (hs : Inv s) (h : step key s e = some s') : Keeps s s' ∧ Inv s' := by
  cases e with
  | load docId =>
      obtain ⟨d, hd, rfl⟩ := Option.map_eq_some_iff.mp h
      refine ⟨⟨fun id hid => hid, fun id _ hnone => hnone⟩, hs.wellFormed, hs.used, ?_,
        fun r hr => (hs.running r hr).keeps ⟨fun id hid => hid, fun id _ hnone => hnone⟩⟩
      intro task ht
      rcases List.mem_append.mp ht with ht | ht
      · exact hs.shown task ht
      · obtain rfl := List.mem_singleton.mp ht
        exact ⟨(hs.wellFormed docId d hd).read docId, hs.used docId (by rw [hd]; rfl)⟩
  | operate z c i op =>
      obtain ⟨task, htask, rfl⟩ := Option.map_eq_some_iff.mp h
      obtain ⟨hwf, hid⟩ := hs.shown task (List.mem_of_getElem? htask)
      apply hs.begin
      intro r hr
      exact List.mem_singleton.mp hr ▸ .new hid (sound_started z c hwf fun _ => rfl)
  | save z c docId uid uuid data =>
      obtain ⟨hnew, hs'⟩ := Option.ite_none_left_eq_some.mp h
      cases hs'
      have htask := newTask_wellFormed (z := z) uid uuid data
      obtain ⟨hkeeps, hcreated⟩ := hs.create hnew htask
      have hnew' : Running.Sound (s.create docId (newTask z uid uuid data))
          (.new docId z c (addNotification z c (.fromMap (newTask z uid uuid data)))) :=
        .new List.mem_cons_self (sound_addNotification (htask.read _))
      obtain ⟨hbegin, hinv⟩ := hcreated.begin fun r hr => List.mem_singleton.mp hr ▸ hnew'
      exact ⟨hkeeps.trans hbegin, hinv⟩
  | clearRecord z c =>
      cases h
      exact hs.begin (sound_deletions s z c)
  | next i => exact hs.next h

omit [DecidableEq κ] in
theorem Deleted.keeps {id : String} (hk : Keeps s s') (h : Deleted s id) : Deleted s' id :=
  ⟨hk.1 id h.1, hk.2 id h.1 h.2⟩

/-- A call that throws has found its document deleted, and changes no more than
its own handler. -/
theorem Inv.deleted_of_thrown (hs : Inv s) {e : Event} {fault : Fault} (h : step key s e = some s')
    (hthrown : thrown key s e = some (r, fault)) : Deleted s r.docId ∧ s'.world = s.world := by
  cases e with
  | next i =>
      obtain ⟨q, call, calls, hq, hcalls, ⟨w', -, hnone, -⟩ | ⟨fault', hexec, hsome, rfl⟩⟩ :=
        step_next h
      · rw [hnone] at hthrown
        cases hthrown
      · -- the call was allowed, so only its document can be at fault
        rw [hsome] at hthrown
        cases hthrown
        have hsound := hs.running r (List.mem_of_getElem? hq)
        obtain ⟨b, hb, hfetched⟩ := hsound.calls
        rw [hcalls] at hb
        have hmissing := exec_error (w := seenBy s.world r.handler) hb.1 hsound.event hfetched hexec
        exact ⟨⟨hsound.used, hmissing⟩, rfl⟩
  | _ => cases hthrown

end Step

/-! ## Runs -/

variable {s₀ s : System κ} {es : List Event}

theorem inv_run (hs : Inv s₀) (h : run (step key) s₀ es = some s) : Inv s :=
  run_invariant _ (fun _ _ _ hs hstep => (hs.keeps hstep).2) hs h

theorem deleted_run {id : String} (hs : Inv s₀) (hid : Deleted s₀ id)
    (h : run (step key) s₀ es = some s) : Deleted s id := by
  have hstep : ∀ t e t', (Inv t ∧ Deleted t id) → step key t e = some t' →
      Inv t' ∧ Deleted t' id := by
    intro t e t' ht hstep
    obtain ⟨hkeeps, hinv⟩ := ht.1.keeps hstep
    exact ⟨hinv, ht.2.keeps hkeeps⟩
  exact (run_invariant _ hstep ⟨hs, hid⟩ h).2

/-- **Deleted for good.** Whatever handlers overlap, on whatever copies, the
documents stay well formed, a deleted one is not brought back, and the calls that
throw are those about a deleted one. -/
theorem deleted_for_good (key : AppTask → κ) {s₀ s : System κ} {es : List Event} (hs : Start s₀)
    (hrun : run (step key) s₀ es = some s) :
    s.world.WellFormed
      ∧ (∀ id, Deleted s id → ∀ es' t, run (step key) s es' = some t → Deleted t id)
      ∧ ∀ e s' r fault, step key s e = some s' → thrown key s e = some (r, fault) →
        Deleted s r.docId ∧ s'.world = s.world := by
  have hinv := inv_run (.start hs) hrun
  refine ⟨hinv.wellFormed, fun id hid es' t ht => deleted_run hinv hid ht, ?_⟩
  exact fun e s' r fault hstep hthrown => hinv.deleted_of_thrown hstep hthrown

/-- A new account. -/
def newAccount : System String := ⟨.empty, [], [], []⟩

theorem start_newAccount : Start newAccount where
  running := rfl
  shown := rfl
  wellFormed id d h := by cases h
  used id h := by cases h

/-- A daily task is completed on one screen, and deleted on another while the
completion has its second write to make. -/
def deletedMeanwhile : List Event :=
  [.save utc (noonOfJune 1) "doc" "uid" "uuid" (.untimed 1654041600000 .daily), .load "doc",
    .operate utc (noonOfJune 1) 0 .complete, .next 1, .next 1,
    .operate utc (noonOfJune 1) 0 .delete, .next 2]

theorem deleted_for_good_swim : ∃ s r, run (step AppTask.id) newAccount deletedMeanwhile = some s
    ∧ thrown AppTask.id s (.next 1) = some (r, .notFound) ∧ Deleted s r.docId := by
  have hrun : (run (step AppTask.id) newAccount deletedMeanwhile).bind
      (fun s => (thrown AppTask.id s (.next 1)).map (·.2)) = some .notFound := by
    decide +kernel
  obtain ⟨s, hs, hmap⟩ := Option.bind_eq_some_iff.mp hrun
  obtain ⟨⟨r, fault⟩, hthrown, rfl⟩ := Option.map_eq_some_iff.mp hmap
  have hlast : (run (step AppTask.id) newAccount (deletedMeanwhile ++ [.next 1])).isSome = true :=
    by decide +kernel
  rw [run_concat, hs, Option.bind_some] at hlast
  obtain ⟨s', hs'⟩ := Option.isSome_iff_exists.mp hlast
  obtain ⟨-, -, hcalls⟩ := deleted_for_good AppTask.id start_newAccount hs
  exact ⟨s, r, hs, hthrown, (hcalls _ s' r .notFound hs' hthrown).1⟩

/-! ## The books -/

/-- What an operation is worth: a tap on a task shown as completed earns nothing. -/
def earns (z : Zone) (c : Clock) (task : AppTask) : TaskOp → ℤ
  | .complete => if task.isCompleted then 0 else coins z c task
  | _ => 0

/-- What an event promises: the coins of a completion that begins. -/
def promised (s : System κ) : Event → ℤ
  | .operate z c i op =>
      match s.shown[i]? with
      | none => 0
      | some task => earns z c task op
  | _ => 0

variable (key) in
/-- What is lost when a call throws: all that its handler had still to credit. -/
def forfeited (s : System κ) (e : Event) : ℤ :=
  match thrown key s e with
  | none => 0
  | some (r, _) => due r.handler

/-- The balance, with all that is still to be credited. -/
def total (s : System κ) : ℤ := s.world.money + (s.running.map fun r => due r.handler).sum

/-- An event that deletes documents. -/
def deletes : Event → Bool
  | .operate _ _ _ op => isDelete op
  | .clearRecord .. => true
  | _ => false

theorem credit_removeNotification (z : Zone) (c : Clock) (task : AppTask) :
    ((removeNotification z c task).map credit).sum = 0 :=
  Overlap.sum_credit_eq_zero fun call hcall =>
    Overlap.credit_of_writes (removeNotification_writes z c task call hcall)

/-- Of all operations only a completion credits anything. -/
theorem credit_started (z : Zone) (c : Clock) (h : task.WellFormed) (op : TaskOp) :
    ((started z c task op).map credit).sum = earns z c task op := by
  have hremove := credit_removeNotification z c task
  cases op with
  | edit data =>
      unfold started TaskOp.calls editTask
      rw [List.map_append, List.sum_append, hremove]
      rfl
  | complete =>
      unfold started ifEventCompleted earns
      by_cases hdone : task.isCompleted = true
      · rw [if_pos hdone, if_pos hdone]
        rfl
      · rw [if_neg hdone, if_neg hdone]
        exact Overlap.credit_completion c h
  | delete =>
      unfold started TaskOp.calls deleteTask
      rw [List.map_cons, List.sum_cons, hremove]
      rfl
  | deleteFromDetails => exact hremove

omit [DecidableEq κ] in
theorem total_begin (s : System κ) (rs : List Running) :
    total (s.begin rs) = total s + (rs.map fun r => due r.handler).sum := by
  unfold total System.begin
  rw [List.map_append, List.sum_append, ← add_assoc]

omit [DecidableEq κ] in
theorem total_moved {i : ℕ} {r : Running} (hr : s.running[i]? = some r) (w' : World κ)
    (r' : Running) : total (s.moved i w' r')
      = total s + (w'.money - s.world.money) + (due r'.handler - due r.handler) := by
  have hsum := Interleave.sum_map_set (fun r => due r.handler) r' s.running i r hr
  unfold total System.moved
  rw [hsum]
  ring

/-- **The books balance** at every step. -/
theorem total_step {e : Event} {s' : System κ} (hs : Inv s) (h : step key s e = some s') :
    total s' = total s + (promised s e - forfeited key s e) := by
  cases e with
  | load docId =>
      obtain ⟨d, hd, rfl⟩ := Option.map_eq_some_iff.mp h
      exact (add_zero _).symm
  | operate z c i op =>
      obtain ⟨task, htask, rfl⟩ := Option.map_eq_some_iff.mp h
      obtain ⟨hwf, -⟩ := hs.shown task (List.mem_of_getElem? htask)
      -- nothing throws as a handler begins
      have hpromised : promised s (.operate z c i op) = earns z c task op := by
        simp only [promised, htask]
      rw [total_begin, hpromised, ← credit_started z c hwf op]
      exact congrArg _ ((add_zero _).trans (sub_zero _).symm)
  | save z c docId uid uuid data =>
      obtain ⟨hnew, hs'⟩ := Option.ite_none_left_eq_some.mp h
      cases hs'
      have hzero := Overlap.sum_credit_eq_zero fun call hcall =>
        Overlap.credit_of_writes
          (addNotification_writes z c (.fromMap (newTask z uid uuid data)) call hcall)
      rw [total_begin]
      exact congrArg _ ((add_zero _).trans hzero)
  | clearRecord z c =>
      cases h
      have hzero : ((s.deletions z c).map fun r => due r.handler).sum = 0 := by
        apply List.sum_eq_zero
        intro x hx
        obtain ⟨r, hr, rfl⟩ := List.mem_map.mp hx
        obtain ⟨id, -, rfl⟩ := List.mem_map.mp hr
        rfl
      rw [total_begin, hzero]
      rfl
  | next i =>
      have hpromised : promised s (.next i) = 0 := rfl
      obtain ⟨r, call, calls, hr, hcalls, ⟨w', hexec, hnone, rfl⟩ | ⟨fault, -, hsome, rfl⟩⟩ :=
        step_next h
      · have hmoney : w'.money = s.world.money + credit call := (Overlap.exec_money hexec).1
        have hdue : due r.handler = credit call + due (r.after calls w').handler := by
          rw [due, hcalls, List.map_cons, List.sum_cons]
          rfl
        have hforfeited : forfeited key s (.next i) = 0 := by rw [forfeited, hnone]
        rw [total_moved hr, hmoney, hdue, hforfeited, hpromised]
        ring
      · have hended : due r.ended.handler = 0 := rfl
        have hforfeited : forfeited key s (.next i) = due r.handler := by rw [forfeited, hsome]
        rw [total_moved hr, hended, hforfeited, hpromised]
        ring

/-! ## What is forfeited -/

theorem due_nonneg {calls : List Call} (h : Sound docId del b calls) :
    0 ≤ (calls.map credit).sum := by
  induction calls generalizing b with
  | nil => exact le_refl 0
  | cons call calls ih =>
      rw [List.map_cons, List.sum_cons]
      have hcredit : 0 ≤ credit call := by
        cases call with
        | addMoney amt => exact h.1
        | _ => exact le_refl 0
      exact add_nonneg hcredit (ih h.2)

theorem mem_of_thrown {e : Event} {r : Running} {fault : Fault}
    (h : thrown key s e = some (r, fault)) : r ∈ s.running := by
  cases e with
  | next i =>
      obtain ⟨q, hq, hcalls⟩ := Option.bind_eq_some_iff.mp h
      obtain ⟨call, -, hexec⟩ := Option.bind_eq_some_iff.mp hcalls
      split at hexec
      · cases hexec
      · cases hexec
        exact List.mem_of_getElem? hq
  | _ => cases h

theorem forfeited_nonneg (hs : Inv s) (e : Event) : 0 ≤ forfeited key s e := by
  unfold forfeited
  split
  · exact le_refl 0
  · next r fault hthrown =>
    obtain ⟨b, hcalls, -⟩ := (hs.running r (mem_of_thrown hthrown)).calls
    exact due_nonneg hcalls

/-- Every task on a screen and every task at work is stored, and no handler is
going to delete one. -/
structure Kept (s : System κ) : Prop where
  shown : ∀ task ∈ s.shown, (s.world.tasks task.id).isSome = true
  stored : ∀ r ∈ s.running, (s.world.tasks r.docId).isSome = true
  calls : ∀ r ∈ s.running, ∃ b, Sound r.docId false b r.handler.calls

theorem exec_stored (hcall : Allowed docId false b call) (h : exec key z c call w = .ok w')
    {id : String} (hid : (w.tasks id).isSome = true) : (w'.tasks id).isSome = true := by
  by_cases hwrites : call.writes = false
  · rw [(exec_store hwrites h).1]
    exact hid
  · cases call with
    | updateData docId update =>
        simp only [exec] at h
        split at h
        · cases h
        · cases h
          have hmem : ∀ x ∈ ({id} : Set String), (w.tasks x).isSome = true := fun x hx => hx ▸ hid
          exact Overlap.isSome_update hmem id rfl
    | addMoney amt =>
        cases h
        exact hid
    | removeItem docId => exact absurd hcall.2 (by decide)
    | create | clearTasks => exact hcall.elim
    | _ => exact absurd rfl hwrites

omit [DecidableEq κ] in
theorem Kept.start (h : Start s) : Kept s where
  shown task ht := by
    rw [h.shown] at ht
    cases ht
  stored r hr := by
    rw [h.running] at hr
    cases hr
  calls r hr := by
    rw [h.running] at hr
    cases hr

theorem Kept.next (hk : Kept s) {i : ℕ} {s' : System κ} (h : step key s (.next i) = some s') :
    Kept s' := by
  obtain ⟨r, call, calls, hr, hcalls, hcase⟩ := step_next h
  have hmem := List.mem_of_getElem? hr
  obtain ⟨b, hb⟩ := hk.calls r hmem
  rw [hcalls] at hb
  rcases hcase with ⟨w', hexec, -, rfl⟩ | ⟨fault, -, -, rfl⟩
  · -- no handler deletes, so what was stored is stored
    have hstored : ∀ id, (s.world.tasks id).isSome = true → (w'.tasks id).isSome = true :=
      fun id hid => exec_stored (w := seenBy s.world r.handler) hb.1 hexec hid
    refine ⟨fun task ht => hstored _ (hk.shown task ht), ?_, ?_⟩
    · exact Interleave.forall_mem_set i (fun q hq => hstored _ (hk.stored q hq))
        (hstored _ (hk.stored r hmem))
    · exact Interleave.forall_mem_set i hk.calls ⟨_, hb.2⟩
  · refine ⟨hk.shown, ?_, ?_⟩
    · exact Interleave.forall_mem_set i hk.stored (hk.stored r hmem)
    · exact Interleave.forall_mem_set i hk.calls ⟨false, trivial⟩

omit [DecidableEq κ] in
theorem Kept.begin (hk : Kept s) {calls : List Call}
    (hstored : (s.world.tasks docId).isSome = true) (hcalls : Sound docId false false calls) :
    Kept (s.begin [.new docId z c calls]) := by
  refine ⟨hk.shown, fun q hq => ?_, fun q hq => ?_⟩
  · rcases List.mem_append.mp hq with hq | hq
    · exact hk.stored q hq
    · obtain rfl := List.mem_singleton.mp hq
      exact hstored
  · rcases List.mem_append.mp hq with hq | hq
    · exact hk.calls q hq
    · exact List.mem_singleton.mp hq ▸ ⟨false, hcalls⟩

omit [DecidableEq κ] in
theorem Kept.create (hk : Kept s) (docId : String) (data : TaskDoc) :
    Kept (s.create docId data) := by
  have hstored : ∀ id, (s.world.tasks id).isSome = true →
      ((s.create docId data).world.tasks id).isSome = true := by
    intro id hid
    have hmem : ∀ x ∈ ({id} : Set String), (s.world.tasks x).isSome = true := fun x hx => hx ▸ hid
    exact Overlap.isSome_update hmem id rfl
  exact ⟨fun task ht => hstored _ (hk.shown task ht), fun r hr => hstored _ (hk.stored r hr),
    hk.calls⟩

/-- Where nothing is deleted, everything is kept. -/
theorem Kept.step {e : Event} {s' : System κ} (hs : Inv s) (hk : Kept s)
    (he : deletes e = false) (h : step key s e = some s') : Kept s' := by
  cases e with
  | load docId =>
      obtain ⟨d, hd, rfl⟩ := Option.map_eq_some_iff.mp h
      refine ⟨fun task ht => ?_, hk.stored, hk.calls⟩
      rcases List.mem_append.mp ht with ht | ht
      · exact hk.shown task ht
      · obtain rfl := List.mem_singleton.mp ht
        have hid : (s.world.tasks docId).isSome = true := by
          rw [hd]
          rfl
        exact hid
  | operate z c i op =>
      obtain ⟨task, htask, rfl⟩ := Option.map_eq_some_iff.mp h
      have hmem := List.mem_of_getElem? htask
      apply hk.begin (hk.shown task hmem)
      apply sound_started z c (hs.shown task hmem).1
      exact fun hdel => absurd (he.symm.trans hdel) (by decide)
  | save z c docId uid uuid data =>
      obtain ⟨hnew, hs'⟩ := Option.ite_none_left_eq_some.mp h
      cases hs'
      apply (hk.create docId _).begin
      · exact Option.isSome_iff_exists.mpr ⟨_, Function.update_self ..⟩
      · exact sound_addNotification ((newTask_wellFormed (z := z) uid uuid data).read _)
  | clearRecord => cases he
  | next i => exact hk.next h

/-- And so nothing throws. -/
theorem forfeited_of_kept (hs : Inv s) (hk : Kept s) {e : Event} {s' : System κ}
    (h : step key s e = some s') : forfeited key s e = 0 := by
  unfold forfeited
  split
  · rfl
  · next r fault hthrown =>
    have hstored := hk.stored r (mem_of_thrown hthrown)
    rw [(hs.deleted_of_thrown h hthrown).1.2] at hstored
    cases hstored

/-- **The coins are accounted for**, whatever overlaps: what the balance is
short of the coins promised is still due, or was forfeited by a call that threw,
which takes a deletion. A dialog that is left by the system's back button never
comes to its credit, so its handler is under way for ever, and its coins due. -/
theorem coins_accounted (key : AppTask → κ) {s₀ s : System κ} {es : List Event} (hs : Start s₀)
    (hrun : run (step key) s₀ es = some s) :
    total s + tally (step key) (forfeited key) s₀ es
        = s₀.world.money + tally (step key) promised s₀ es
      ∧ 0 ≤ tally (step key) (forfeited key) s₀ es
      ∧ ((∀ e ∈ es, deletes e = false) → tally (step key) (forfeited key) s₀ es = 0) := by
  have hinv := Inv.start hs
  have hkeep : ∀ s e s', Inv s → True → step key s e = some s' → Inv s' :=
    fun s e s' hs _ h => (hs.keeps h).2
  refine ⟨?_, ?_, fun hes => ?_⟩
  · have htotal := tally_run (fun s e s' hs h => hkeep s e s' hs trivial h)
      (fun s e s' => total_step) hinv hrun
    have hsplit : tally (step key)
        (fun s e => promised s e - forfeited key s e + forfeited key s e) s₀ es
          = tally (step key) (fun s e => promised s e - forfeited key s e) s₀ es
            + tally (step key) (forfeited key) s₀ es := tally_add _ _ _ _
    simp only [sub_add_cancel] at hsplit
    have hstart : total s₀ = s₀.world.money := by
      rw [total, hs.running]
      exact add_zero _
    rw [htotal, hstart, add_assoc, ← hsplit]
  · exact tally_closed (E := fun _ => True) (le_refl 0) (fun a b => add_nonneg) hkeep
      (fun s e s' hs _ _ => forfeited_nonneg hs e) hinv fun _ _ => trivial
  · have hkept : ∀ s e s', (Inv s ∧ Kept s) → deletes e = false → step key s e = some s' →
        Inv s' ∧ Kept s' :=
      fun s e s' hs he h => ⟨(hs.1.keeps h).2, hs.2.step hs.1 he h⟩
    have hzero : ∀ s e s', (Inv s ∧ Kept s) → deletes e = false → step key s e = some s' →
        forfeited key s e = 0 :=
      fun s e s' hs _ h => forfeited_of_kept hs.1 hs.2 h
    have hadd : ∀ a b : ℤ, a = 0 → b = 0 → a + b = 0 := fun a b ha hb => by rw [ha, hb, add_zero]
    exact tally_closed (P := fun x : ℤ => x = 0) rfl hadd hkept hzero ⟨hinv, .start hs⟩ hes

theorem coins_accounted_swim : ∃ s,
    run (step AppTask.id) newAccount (deletedMeanwhile ++ [.next 1]) = some s
      ∧ tally (step AppTask.id) promised newAccount (deletedMeanwhile ++ [.next 1]) = 1
      ∧ total s + tally (step AppTask.id) (forfeited AppTask.id) newAccount
          (deletedMeanwhile ++ [.next 1]) = 1 := by
  have hrun : (run (step AppTask.id) newAccount (deletedMeanwhile ++ [.next 1])).isSome = true := by
    decide +kernel
  have hpromised : tally (step AppTask.id) promised newAccount
      (deletedMeanwhile ++ [.next 1]) = 1 := by
    decide +kernel
  obtain ⟨s, hs⟩ := Option.isSome_iff_exists.mp hrun
  have htotal := (coins_accounted AppTask.id start_newAccount hs).1
  rw [hpromised] at htotal
  exact ⟨s, hs, hpromised, htotal⟩

end AquaFocus.Handlers
