/-
Operations on different tasks.

Handlers that overlap share the documents and what is pending, but an operation
names one document and one address, and keeps to them. So operations on different
tasks leave the same documents and the same reminders behind however their calls
interleave: each what it leaves when it runs alone (`each_alone`). What they do
share is the balance, where the credits only add up, and the home screen.

The plugin's address of a task is a hash of its id and its user's, and all tasks
of an account are one user's, the `owner`.
-/
import AquaFocus.Handlers

set_option autoImplicit false

open Dart Calls Runs Interleave

namespace AquaFocus.SeparateTasks

open Handlers (Running started)
open Overlap (seenBy)

/-! ## Calls about one task -/

variable {κ : Type} [DecidableEq κ] (owner : Option String)

/-- The task of the document `docId`, of this account. -/
def IsOf (docId : String) (task : AppTask) : Prop := task.id = docId ∧ task.userId = owner

def About (docId : String) : Call → Prop
  | .create id data => id = docId ∧ data.userId = owner
  | .updateData id _ | .getSingle id | .removeItem id => id = docId
  | .cancel task | .scheduleNotification task _ => IsOf owner docId task
  | .clearTasks | .cancelAll => False
  | _ => True

/-- All documents are the owner's. -/
def Owned (w : World κ) : Prop := ∀ id d, w.tasks id = some d → d.userId = owner

variable (addr : String → κ)

/-- Two worlds are alike to a handler of this document. -/
structure Alike (docId : String) (w g : World κ) : Prop where
  tasks : w.tasks docId = g.tasks docId
  pending : w.pending (addr docId) = g.pending (addr docId)
  event : w.event = g.event

variable {owner addr} {key : AppTask → κ} {z : Zone} {c : Clock} {docId : String} {call : Call}
  {w w' g : World κ} {task : AppTask}

theorem userId_apply (update : TaskUpdate) (d : TaskDoc) : (update.apply d).userId = d.userId := by
  cases update with
  | _ => rfl

omit [DecidableEq κ] in
theorem IsOf.key_eq (hkey : ∀ task : AppTask, task.userId = owner → key task = addr task.id)
    (h : IsOf owner docId task) : key task = addr docId := by
  rw [hkey task h.2, h.1]

/-- A call about a document does the same in worlds that are alike to it. -/
theorem exec_alike (hkey : ∀ task : AppTask, task.userId = owner → key task = addr task.id)
    (hcall : About owner docId call)
    (hevent : ∀ event, w.event = some event → IsOf owner docId event)
    (h : Alike addr docId w g) :
    (∃ w' g', exec key z c call w = .ok w' ∧ exec key z c call g = .ok g' ∧ Alike addr docId w' g')
      ∨ ∃ fault, exec key z c call w = .error fault ∧ exec key z c call g = .error fault := by
  cases call with
  | create id data =>
      obtain ⟨rfl, -⟩ := hcall
      refine .inl ⟨_, _, rfl, rfl, ?_, h.pending, h.event⟩
      simp only [Function.update_self]
  | updateData id update =>
      -- it throws in both worlds or in neither, for both have the same document
      obtain rfl : id = docId := hcall
      cases hd : w.tasks id with
      | none =>
          have hg : g.tasks id = none := h.tasks ▸ hd
          exact .inr ⟨.notFound, by rw [exec, hd], by rw [exec, hg]⟩
      | some d =>
          have hg : g.tasks id = some d := h.tasks ▸ hd
          refine .inl ⟨_, _, exec_updateData update hd, exec_updateData update hg, ?_, h.pending,
            h.event⟩
          simp only [Function.update_self]
  | getSingle id =>
      obtain rfl : id = docId := hcall
      exact .inl ⟨_, _, rfl, rfl, h.tasks, h.pending, by rw [h.tasks]⟩
  | removeItem id =>
      obtain rfl : id = docId := hcall
      refine .inl ⟨_, _, rfl, rfl, ?_, h.pending, h.event⟩
      simp only [Function.update_self]
  | cancel task =>
      refine .inl ⟨_, _, rfl, rfl, h.tasks, ?_, h.event⟩
      simp only [World.cancel, IsOf.key_eq hkey hcall, Function.update_self]
  | scheduleNotification task t =>
      refine .inl ⟨_, _, rfl, rfl, h.tasks, ?_, h.event⟩
      simp only [World.schedule, IsOf.key_eq hkey hcall, Function.update_self]
  | addNotification =>
      cases he : w.event with
      | none =>
          have hg : g.event = none := h.event ▸ he
          exact .inr ⟨.nullCheck, by rw [exec, he], by rw [exec, hg]⟩
      | some event =>
          have hg : g.event = some event := h.event ▸ he
          cases ho : isScheduledEvent z c event with
          | error fault =>
              exact .inr ⟨fault, by simp only [exec, he, ho], by simp only [exec, hg, ho]⟩
          | ok o =>
              cases o with
              | none =>
                  exact .inl ⟨w, g, by simp only [exec, he, ho], by simp only [exec, hg, ho], h⟩
              | some t =>
                  refine .inl ⟨w.schedule key event t, g.schedule key event t,
                    by simp only [exec, he, ho], by simp only [exec, hg, ho], h.tasks, ?_, h.event⟩
                  simp only [World.schedule, IsOf.key_eq hkey (hevent event he),
                    Function.update_self]
  | throws fault => exact .inr ⟨fault, rfl, rfl⟩
  | clearTasks | cancelAll => exact hcall.elim
  | _ => exact .inl ⟨_, _, rfl, rfl, h.tasks, h.pending, h.event⟩

/-- A call about a document leaves the other documents, and the other addresses. -/
theorem exec_frame (hkey : ∀ task : AppTask, task.userId = owner → key task = addr task.id)
    (hcall : About owner docId call)
    (hevent : ∀ event, w.event = some event → IsOf owner docId event)
    (h : exec key z c call w = .ok w') :
    (∀ id, id ≠ docId → w'.tasks id = w.tasks id)
      ∧ ∀ a, a ≠ addr docId → w'.pending a = w.pending a := by
  cases call with
  | create id data =>
      cases h
      obtain ⟨rfl, -⟩ := hcall
      exact ⟨fun x hx => Function.update_of_ne hx .., fun _ _ => rfl⟩
  | updateData id update =>
      obtain rfl : id = docId := hcall
      simp only [exec] at h
      split at h
      · cases h
      · cases h
        exact ⟨fun x hx => Function.update_of_ne hx .., fun _ _ => rfl⟩
  | removeItem id =>
      cases h
      obtain rfl : id = docId := hcall
      exact ⟨fun x hx => Function.update_of_ne hx .., fun _ _ => rfl⟩
  | cancel task =>
      cases h
      refine ⟨fun _ _ => rfl, fun a ha => Function.update_of_ne ?_ ..⟩
      rwa [IsOf.key_eq hkey hcall]
  | scheduleNotification task t =>
      cases h
      refine ⟨fun _ _ => rfl, fun a ha => Function.update_of_ne ?_ ..⟩
      rwa [IsOf.key_eq hkey hcall]
  | addNotification =>
      simp only [exec] at h
      split at h
      · cases h
      · next event he =>
        split at h
        · cases h
        · cases h
          exact ⟨fun _ _ => rfl, fun _ _ => rfl⟩
        · cases h
          refine ⟨fun _ _ => rfl, fun a ha => Function.update_of_ne ?_ ..⟩
          rwa [IsOf.key_eq hkey (hevent event he)]
  | throws fault => cases h
  | clearTasks | cancelAll => exact hcall.elim
  | _ =>
      cases h
      exact ⟨fun _ _ => rfl, fun _ _ => rfl⟩

theorem exec_owned (hcall : About owner docId call) (hw : Owned owner w)
    (h : exec key z c call w = .ok w') : Owned owner w' := by
  intro id d' hd'
  rcases exec_document h id with heq | hnone | ⟨data, rfl, hdata⟩ | ⟨update, d, -, hd, hupdate⟩
  · exact hw id d' (heq ▸ hd')
  · rw [hnone] at hd'
    cases hd'
  · rw [hdata, Option.some.injEq] at hd'
    exact hd' ▸ hcall.2
  · rw [hupdate, Option.some.injEq] at hd'
    rw [← hd', userId_apply]
    exact hw id d hd

theorem exec_event_isOf (hcall : About owner docId call) (hw : Owned owner w)
    (hevent : ∀ event, w.event = some event → IsOf owner docId event)
    (h : exec key z c call w = .ok w') :
    ∀ event, w'.event = some event → IsOf owner docId event := by
  intro event he
  rcases exec_event h with heq | ⟨id, rfl, hread⟩
  · exact hevent event (heq ▸ he)
  · rw [hread, Option.map_eq_some_iff] at he
    obtain ⟨d, hd, rfl⟩ := he
    exact ⟨hcall, hw id d hd⟩

/-! ## Handlers -/

/-- A handler that keeps to its task. -/
structure Private (owner : Option String) (r : Running) : Prop where
  calls : ∀ call ∈ r.handler.calls, About owner r.docId call
  event : ∀ event, r.handler.event = some event → IsOf owner r.docId event

/-- What holds of every state of a run. -/
structure Inv (owner : Option String) (addr : String → κ) (c : Config (World κ) Running) :
    Prop where
  owned : Owned owner c.shared
  own : ∀ r ∈ c.clients, Private owner r
  apart : (c.clients.map fun r => addr r.docId).Nodup

/-- The handler `y` is at the same call as `x`, in a world that is alike to it. -/
structure Mirrors (addr : String → κ) (x y : World κ × Running) : Prop where
  docId : y.2.docId = x.2.docId
  zone : y.2.handler.zone = x.2.handler.zone
  clock : y.2.handler.clock = x.2.handler.clock
  calls : y.2.handler.calls = x.2.handler.calls
  alike : Alike addr x.2.docId (seenBy x.1 x.2.handler) (seenBy y.1 y.2.handler)

theorem inv_step (c : Config (World κ) Running) (e : ℕ × Unit) (c' : Config (World κ) Running)
    (hc : Inv owner addr c) (h : step (Handlers.act key) c e = some c') : Inv owner addr c' := by
  obtain ⟨r, w', r', hr, hact, rfl⟩ := step_cases h
  have hown := hc.own r (List.mem_of_getElem? hr)
  have hdocs : (c.clients.set e.1 r').map (fun r => addr r.docId)
      = c.clients.map fun r => addr r.docId :=
    map_set_of_eq hr (congrArg addr (Handlers.docId_of_act hact))
  have hapart : ((c.clients.set e.1 r').map fun r => addr r.docId).Nodup := hdocs ▸ hc.apart
  obtain ⟨call, calls, hcalls, ⟨hexec, rfl⟩ | ⟨fault, -, rfl, rfl⟩⟩ := Handlers.act_cases hact
  · have hcall := hown.calls call (hcalls ▸ List.mem_cons_self)
    refine ⟨exec_owned (w := seenBy c.shared r.handler) hcall hc.owned hexec, ?_, hapart⟩
    refine forall_mem_set e.1 hc.own ⟨fun x hx => hown.calls x ?_, ?_⟩
    · rw [hcalls]
      exact List.mem_cons_of_mem call hx
    · exact exec_event_isOf (w := seenBy c.shared r.handler) hcall hc.owned hown.event hexec
  · refine ⟨hc.owned, forall_mem_set e.1 hc.own ⟨fun x hx => ?_, hown.event⟩, hapart⟩
    cases hx

section Run

variable (hkey : ∀ task : AppTask, task.userId = owner → key task = addr task.id)

include hkey

/-- A handler's step leaves the other documents, and the other addresses. -/
theorem act_frame {r r' : Running} {u : Unit} (hown : Private owner r)
    (hact : Handlers.act key w r u = some (w', r')) :
    (∀ id, id ≠ r.docId → w'.tasks id = w.tasks id)
      ∧ ∀ a, a ≠ addr r.docId → w'.pending a = w.pending a := by
  obtain ⟨call, calls, hcalls, ⟨hexec, -⟩ | ⟨fault, -, rfl, -⟩⟩ := Handlers.act_cases hact
  · have hcall := hown.calls call (hcalls ▸ List.mem_cons_self)
    exact exec_frame (w := seenBy w r.handler) hkey hcall hown.event hexec
  · exact ⟨fun _ _ => rfl, fun _ _ => rfl⟩

/-- A handler's own step, which it also takes alone. -/
theorem own_step (c : Config (World κ) Running) (i : ℕ) (r : Running) (u : Unit) (w' : World κ)
    (r' : Running) (x : World κ × Running) (hc : Inv owner addr c) (hr : c.clients[i]? = some r)
    (hx : Mirrors addr (c.shared, r) x) (hact : Handlers.act key c.shared r u = some (w', r')) :
    ∃ x', solo (Handlers.act key) x u = some x' ∧ Mirrors addr (w', r') x' := by
  have hown := hc.own r (List.mem_of_getElem? hr)
  obtain ⟨call, calls, hcalls, hcase⟩ := Handlers.act_cases hact
  have hcall := hown.calls call (hcalls ▸ List.mem_cons_self)
  have hxcalls : x.2.handler.calls = call :: calls := hx.calls.trans hcalls
  have halike := exec_alike (z := r.handler.zone) (c := r.handler.clock) hkey hcall hown.event
    hx.alike
  rcases hcase with ⟨hexec, rfl⟩ | ⟨fault, hexec, rfl, rfl⟩
  · -- the balance it reads may differ, but is no part of what is alike
    rcases halike with ⟨v, g', hv, hg', hsame⟩ | ⟨fault, hfault, -⟩
    · rw [hexec, Except.ok.injEq] at hv
      subst hv
      rw [← hx.zone, ← hx.clock] at hg'
      exact ⟨_, Handlers.act_of_ok u hxcalls hg', hx.docId, hx.zone, hx.clock, rfl, hsame⟩
    · rw [hexec] at hfault
      cases hfault
  · rcases halike with ⟨v, g', hv, -, -⟩ | ⟨fault', -, hg'⟩
    · rw [hexec] at hv
      cases hv
    · rw [← hx.zone, ← hx.clock] at hg'
      exact ⟨_, Handlers.act_of_error u hxcalls hg', hx.docId, hx.zone, hx.clock, rfl, hx.alike⟩

/-- A step of another handler, which the handler does not see. -/
theorem other_step (c : Config (World κ) Running) (i j : ℕ) (r q : Running) (u : Unit)
    (w' : World κ) (r' : Running) (x : World κ × Running) (hc : Inv owner addr c) (hij : i ≠ j)
    (hr : c.clients[i]? = some r) (hq : c.clients[j]? = some q)
    (hx : Mirrors addr (c.shared, q) x) (hact : Handlers.act key c.shared r u = some (w', r')) :
    Mirrors addr (w', q) x := by
  have hown := hc.own r (List.mem_of_getElem? hr)
  -- two places of a list without repetition
  have haddr : addr q.docId ≠ addr r.docId := by
    intro heq
    have hi : i < (c.clients.map fun r => addr r.docId).length := by
      rw [List.length_map]
      exact (List.getElem?_eq_some_iff.mp hr).1
    refine hij ((List.getElem?_inj hi hc.apart).mp ?_)
    rw [List.getElem?_map, List.getElem?_map, hr, hq, Option.map_some, Option.map_some, heq]
  have hdoc : q.docId ≠ r.docId := fun h => haddr (congrArg addr h)
  obtain ⟨htasks, hpending⟩ := act_frame hkey hown hact
  refine ⟨hx.docId, hx.zone, hx.clock, hx.calls, ?_, ?_, hx.alike.event⟩
  · exact (htasks q.docId hdoc).trans hx.alike.tasks
  · exact (hpending _ haddr).trans hx.alike.pending

/-- What no handler is about, a run leaves as it is. -/
theorem frame_run {c c' : Config (World κ) Running}
    (hc : Inv owner addr c) {es : List (ℕ × Unit)}
    (h : run (step (Handlers.act key)) c es = some c') :
    (∀ id, (∀ r ∈ c.clients, r.docId ≠ id) → c'.shared.tasks id = c.shared.tasks id)
      ∧ ∀ a, (∀ r ∈ c.clients, addr r.docId ≠ a) → c'.shared.pending a = c.shared.pending a := by
  -- the handlers stay with their documents
  have hdocs : ∀ {d d' : Config (World κ) Running} {e} {P : String → Prop},
      (∀ r ∈ d.clients, P r.docId) → step (Handlers.act key) d e = some d' →
        ∀ r ∈ d'.clients, P r.docId := by
    intro d d' e P hP hstep
    obtain ⟨r, v, r', hr, hact, rfl⟩ := step_cases hstep
    refine forall_mem_set (P := fun r : Running => P r.docId) e.1 hP ?_
    rw [Handlers.docId_of_act hact]
    exact hP r (List.mem_of_getElem? hr)
  constructor
  · intro id hid
    have hstep : ∀ d e d', (Inv owner addr d ∧ (∀ r ∈ d.clients, r.docId ≠ id)
          ∧ d.shared.tasks id = c.shared.tasks id) → step (Handlers.act key) d e = some d' →
        Inv owner addr d' ∧ (∀ r ∈ d'.clients, r.docId ≠ id)
          ∧ d'.shared.tasks id = c.shared.tasks id := by
      rintro d e d' ⟨hd, hne, heq⟩ hstep
      refine ⟨inv_step d e d' hd hstep, hdocs (P := (· ≠ id)) hne hstep, ?_⟩
      obtain ⟨r, v, r', hr, hact, rfl⟩ := step_cases hstep
      have hmem := List.mem_of_getElem? hr
      exact ((act_frame hkey (hd.own r hmem) hact).1 id (hne r hmem).symm).trans heq
    exact (run_invariant _ hstep ⟨hc, hid, rfl⟩ h).2.2
  · intro a ha
    have hstep : ∀ d e d', (Inv owner addr d ∧ (∀ r ∈ d.clients, addr r.docId ≠ a)
          ∧ d.shared.pending a = c.shared.pending a) → step (Handlers.act key) d e = some d' →
        Inv owner addr d' ∧ (∀ r ∈ d'.clients, addr r.docId ≠ a)
          ∧ d'.shared.pending a = c.shared.pending a := by
      rintro d e d' ⟨hd, hne, heq⟩ hstep
      refine ⟨inv_step d e d' hd hstep, hdocs (P := (addr · ≠ a)) hne hstep, ?_⟩
      obtain ⟨r, v, r', hr, hact, rfl⟩ := step_cases hstep
      have hmem := List.mem_of_getElem? hr
      exact ((act_frame hkey (hd.own r hmem) hact).2 a (hne r hmem).symm).trans heq
    exact (run_invariant _ hstep ⟨hc, ha, rfl⟩ h).2.2

end Run

/-! ## A handler alone -/

/-- The world a handler leaves when nothing comes between its calls. -/
def rest (key : AppTask → κ) (x : World κ × Running) : World κ :=
  (perform (exec key x.2.handler.zone x.2.handler.clock) x.2.handler.calls
    (seenBy x.1 x.2.handler)).1

theorem rest_solo {x x' : World κ × Running} {u : Unit}
    (h : solo (Handlers.act key) x u = some x') : rest key x' = rest key x := by
  obtain ⟨w, r⟩ := x
  obtain ⟨w', r'⟩ := x'
  obtain ⟨call, calls, hcalls, ⟨hexec, rfl⟩ | ⟨fault, hexec, rfl, rfl⟩⟩ := Handlers.act_cases h
  · -- the call leaves the handler the variables it has left in the world
    unfold rest
    rw [hcalls, perform_cons_ok calls hexec]
    rfl
  · unfold rest
    rw [hcalls, perform_cons_error calls hexec]
    rfl

/-- An operation that begins, on a phone with this zone and this clock. -/
structure Job where
  zone : Zone
  clock : Clock
  task : AppTask
  op : TaskOp

def Job.calls (j : Job) : List Call := started j.zone j.clock j.task j.op

/-- The account, and the operations that are going to be made. -/
def start (w : World κ) (jobs : List Job) : Config (World κ) Running :=
  ⟨w, jobs.map fun j => .new j.task.id j.zone j.clock j.calls⟩

/-- What an operation leaves when it is the only one. -/
def alone (key : AppTask → κ) (w : World κ) (j : Job) : World κ :=
  (perform (exec key j.zone j.clock) j.calls w.fresh).1

theorem about_removeNotification (z : Zone) (c : Clock) (h : IsOf owner docId task) :
    ∀ call ∈ removeNotification z c task, About owner docId call := by
  intro call hcall
  rcases mem_removeNotification hcall with rfl | ⟨fault, rfl⟩
  · exact h
  · trivial

theorem about_reschedule (z : Zone) (c : Clock) (task : AppTask) (s : ℤ)
    (next : Option DateTime) :
    ∀ call ∈ reschedule z c task s next, About owner task.id call := by
  cases next with
  | none => exact fun call hcall => absurd hcall List.not_mem_nil
  | some t =>
      unfold reschedule remind
      rw [List.forall_mem_cons]
      refine ⟨rfl, ?_⟩
      by_cases htime : task.hasTime = true
      · rw [if_pos htime, List.forall_mem_cons, List.forall_mem_singleton]
        exact ⟨rfl, trivial⟩
      · rw [if_neg htime]
        exact fun call hcall => absurd hcall List.not_mem_nil

theorem about_processCompletion (z : Zone) (c : Clock) (h : IsOf owner task.id task) :
    ∀ call ∈ processCompletion z c task, About owner task.id call := by
  unfold processCompletion
  rw [List.forall_mem_append, List.forall_mem_cons]
  refine ⟨about_removeNotification z c h, rfl, ?_⟩
  split
  · rw [List.forall_mem_singleton]
    trivial
  · next next hnext =>
    have hreschedule : ∀ s, ∀ call ∈ reschedule z c task s next, About owner task.id call :=
      fun s => about_reschedule z c task s next
    by_cases hpaid : giveMoney z c task = true
    · rw [if_pos hpaid, List.forall_mem_cons, List.forall_mem_append, List.forall_mem_singleton]
      exact ⟨trivial, hreschedule _, trivial⟩
    · rw [if_neg hpaid, List.forall_mem_append, List.forall_mem_singleton]
      exact ⟨hreschedule _, trivial⟩

theorem about_backButton (z : Zone) (c : Clock) (task : AppTask) :
    ∀ call ∈ backButton z c task, About owner docId call := by
  unfold backButton
  by_cases hpaid : giveMoney z c task = true
  · rw [if_pos hpaid, List.forall_mem_cons, List.forall_mem_singleton]
    exact ⟨trivial, trivial⟩
  · rw [if_neg hpaid]
    exact fun call hcall => absurd hcall List.not_mem_nil

/-- Every operation keeps to its task. -/
theorem about_started (z : Zone) (c : Clock) (htask : task.userId = owner) (op : TaskOp) :
    ∀ call ∈ started z c task op, About owner task.id call := by
  have hremove := about_removeNotification z c (⟨rfl, htask⟩ : IsOf owner task.id task)
  cases op with
  | edit data =>
      unfold started TaskOp.calls editTask
      rw [List.forall_mem_append, List.forall_mem_cons, List.forall_mem_cons,
        List.forall_mem_singleton]
      exact ⟨hremove, rfl, rfl, trivial⟩
  | complete =>
      unfold started Overlap.ifEventCompleted completion
      by_cases hdone : task.isCompleted = true
      · rw [if_pos hdone]
        exact fun call hcall => absurd hcall List.not_mem_nil
      · rw [if_neg hdone, List.forall_mem_append]
        exact ⟨about_processCompletion z c ⟨rfl, htask⟩, about_backButton z c task⟩
  | delete =>
      unfold started TaskOp.calls deleteTask
      rw [List.forall_mem_cons]
      exact ⟨rfl, hremove⟩
  | deleteFromDetails => exact hremove

/-! ## Any schedule -/

variable {jobs : List Job}

/-- The tasks of this account, each with one operation and an address of its own. -/
structure Separate (owner : Option String) (addr : String → κ) (w : World κ) (jobs : List Job) :
    Prop where
  owned : Owned owner w
  owner : ∀ j ∈ jobs, j.task.userId = owner
  apart : (jobs.map fun j => addr j.task.id).Nodup

omit [DecidableEq κ] in
theorem inv_start (h : Separate owner addr w jobs) : Inv owner addr (start w jobs) where
  owned := h.owned
  own r hr := by
    obtain ⟨j, hj, rfl⟩ := List.mem_map.mp hr
    exact ⟨about_started j.zone j.clock (h.owner j hj) j.op, fun event he => by cases he⟩
  apart := by
    have hmap : (start w jobs).clients.map (fun r => addr r.docId)
        = jobs.map fun j => addr j.task.id := List.map_map ..
    rw [hmap]
    exact h.apart

/-- **Each as if alone**: operations on different tasks, with their calls in any
order, leave each document and each reminder as the operation on it leaves them
alone, and everything else as it was. -/
theorem each_alone {key : AppTask → κ} {owner : Option String} {addr : String → κ} {w : World κ}
    {jobs : List Job} (hkey : ∀ task : AppTask, task.userId = owner → key task = addr task.id)
    (h : Separate owner addr w jobs) {es : List (ℕ × Unit)} {c : Config (World κ) Running}
    (hrun : run (step (Handlers.act key)) (start w jobs) es = some c)
    (hend : ∀ r ∈ c.clients, r.handler.calls = []) :
    (∀ j ∈ jobs, c.shared.tasks j.task.id = (alone key w j).tasks j.task.id
        ∧ c.shared.pending (addr j.task.id) = (alone key w j).pending (addr j.task.id))
      ∧ (∀ id, (∀ j ∈ jobs, j.task.id ≠ id) → c.shared.tasks id = w.tasks id)
      ∧ ∀ a, (∀ j ∈ jobs, addr j.task.id ≠ a) → c.shared.pending a = w.pending a := by
  have hinv := inv_start h
  obtain ⟨htasks, hpending⟩ := frame_run hkey hinv hrun
  refine ⟨fun j hj => ?_, fun id hid => htasks id ?_, fun a ha => hpending a ?_⟩
  · obtain ⟨i, hi⟩ := List.mem_iff_getElem?.mp hj
    have hr : (start w jobs).clients[i]? = some (.new j.task.id j.zone j.clock j.calls) := by
      rw [start, List.getElem?_map, hi, Option.map_some]
    have hmirror : Mirrors addr ((start w jobs).shared, .new j.task.id j.zone j.clock j.calls)
        (w, .new j.task.id j.zone j.clock j.calls) := ⟨rfl, rfl, rfl, rfl, rfl, rfl, rfl⟩
    obtain ⟨r, as, x, hri, hsolo, hmirrors⟩ :=
      run_alone (R := Mirrors addr) inv_step (own_step hkey) (other_step hkey) hinv hr hmirror hrun
    have hstep : ∀ y u y', (rest key y = alone key w j ∧ y.2.docId = j.task.id) →
        solo (Handlers.act key) y u = some y' →
        rest key y' = alone key w j ∧ y'.2.docId = j.task.id :=
      fun y u y' hy hsolo => ⟨(rest_solo hsolo).trans hy.1,
        (Handlers.docId_of_act hsolo).trans hy.2⟩
    have hbegin : rest key (w, .new j.task.id j.zone j.clock j.calls) = alone key w j := rfl
    obtain ⟨hrest, hdoc⟩ := run_invariant _ hstep ⟨hbegin, rfl⟩ hsolo
    -- nothing is left to do, so what the handler leaves alone is the world it is in
    have hcalls : x.2.handler.calls = [] :=
      hmirrors.calls.trans (hend r (List.mem_of_getElem? hri))
    have hworld : alone key w j = seenBy x.1 x.2.handler := by
      rw [← hrest, rest, hcalls, perform_nil]
    have hr' : r.docId = j.task.id := hmirrors.docId.symm.trans hdoc
    rw [hworld, ← hr']
    exact ⟨hmirrors.alike.tasks, hmirrors.alike.pending⟩
  · intro r hr
    obtain ⟨j, hj, rfl⟩ := List.mem_map.mp hr
    exact hid j hj
  · intro r hr
    obtain ⟨j, hj, rfl⟩ := List.mem_map.mp hr
    exact ha j hj

/-- Two daily tasks with reminders, stored under "a" and "b". -/
def twoTasks : World String :=
  { World.empty with
    tasks := fun id =>
      if id = "a" ∨ id = "b" then
        some (newTask utc "uid" id (.timed 1654041600000 1654092000000 .daily .ontime))
      else none }

/-- One is completed while the other is deleted. -/
def twoJobs : List Job :=
  let task id := AppTask.fromDS id
    (newTask utc "uid" id (.timed 1654041600000 1654092000000 .daily .ontime))
  [⟨utc, noonOfJune 1, task "a", .complete⟩, ⟨utc, noonOfJune 1, task "b", .delete⟩]

theorem separate_twoTasks : Separate (some "uid") id twoTasks twoJobs where
  owned id d hd := by
    have hite := Option.ite_none_right_eq_some.mp hd
    exact Option.some.inj hite.2 ▸ rfl
  owner j hj := by
    rcases List.mem_cons.mp hj with rfl | hj
    · rfl
    · obtain rfl := List.mem_singleton.mp hj
      rfl
  apart := by decide

theorem each_alone_twoTasks : ∃ c,
    run (step (Handlers.act AppTask.id)) (start twoTasks twoJobs)
        ([0, 0, 1, 0, 1, 0, 0, 0, 0, 0, 0].map (·, ())) = some c
      ∧ c.shared.tasks "a" = (alone AppTask.id twoTasks
          ⟨utc, noonOfJune 1, .fromDS "a" (newTask utc "uid" "a"
            (.timed 1654041600000 1654092000000 .daily .ontime)), .complete⟩).tasks "a" := by
  have hlengths : (run (step (Handlers.act AppTask.id)) (start twoTasks twoJobs)
      ([0, 0, 1, 0, 1, 0, 0, 0, 0, 0, 0].map (·, ()))).map
        (fun c => c.clients.all fun r => r.handler.calls.isEmpty) = some true := by
    decide +kernel
  obtain ⟨c, hc, hempty⟩ := Option.map_eq_some_iff.mp hlengths
  have hend : ∀ r ∈ c.clients, r.handler.calls = [] := fun r hr =>
    List.isEmpty_iff.mp (List.all_eq_true.mp hempty r hr)
  have hkey : ∀ task : AppTask, task.userId = some "uid" → task.id = id task.id := fun _ _ => rfl
  have hall := (each_alone hkey separate_twoTasks hc hend).1
  exact ⟨c, hc, (hall _ List.mem_cons_self).1⟩

end AquaFocus.SeparateTasks
