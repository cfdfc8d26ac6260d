/-
`lib/services/task_firestore_service.dart`: the shared object `taskDBS`, in a
process that signs in and out.

`taskDBS` is a top-level `final`, so the account in its path
`users/${user?.uid}/tasks` is the one `user` held when some screen first used
it, and stays so for the life of the process. `DatabaseServices`, which the same
handlers use for the balance, is constructed anew each time and asks `user` each
time.

A step is one call of one handler, so a sign-out may fall between any two calls.
Every call on `taskDBS` is logged with the account signed in at that moment, and
`isolated_iff_sameAccount` says for which runs each such call addresses that
account's own tasks.
-/
import AquaFocus.TaskOps
import AquaFocus.Lib.Runs

set_option autoImplicit false

open Dart Calls Runs

namespace AquaFocus.TaskStore

/-! ## The process -/

/-- The path of an account's tasks. -/
def tasksPath (uid : String) : String := "users/" ++ uid ++ "/tasks"

/-- What `${user?.uid}` reads in a string. -/
def interpolated (uid : Option String) : String := uid.getD "null"

/-- The calls on `taskDBS`. -/
def usesTaskDBS : Call → Bool
  | .create .. | .updateData .. | .getSingle _ | .removeItem _ => true
  | _ => false

/-- The calls on a `DatabaseServices()`, whose constructor needs `user!`. -/
def usesDatabaseServices : Call → Bool
  | .getMoney | .addMoney _ => true
  | _ => false

/-- A handler under way: the calls it has still to make, and its variables. -/
structure Handler where
  clock : Clock
  calls : List Call
  event : Option AppTask
  currMoney : ℤ
  /-- the tasks are cleared from the settings, not by a task's handler -/
  keepsTasks : Call.clearTasks ∉ calls

/-- A call on `taskDBS`: who was signed in, and the path it addressed. -/
structure Access where
  account : Option String
  path : String
deriving DecidableEq

structure Session (κ : Type) where
  /-- `FirebaseAuth.instance.currentUser` -/
  currentUser : Option String
  /-- what `userChanges()` has still to deliver -/
  userChanges : List (Option String)
  /-- `user` of `main.dart` -/
  user : Option String
  /-- the `user?.uid` that `taskDBS` was initialised with, once it was used -/
  taskDBS : Option (Option String)
  /-- the documents of each path -/
  docs : String → String → Option TaskDoc
  /-- the balance of each account -/
  money : String → ℤ
  fishMoney : ℤ
  pending : κ → Option DateTime
  handlers : List Handler
  /-- the tasks last listed -/
  shown : String → Option TaskDoc
  log : List Access

/-- The process as it starts: Firebase may still know an account, and reports it. -/
def Session.launch {κ : Type} (account : Option String) (docs : String → String → Option TaskDoc)
    (money : String → ℤ) (pending : κ → Option DateTime) : Session κ where
  currentUser := account
  userChanges := [account]
  user := none
  taskDBS := none
  docs := docs
  money := money
  fishMoney := 0
  pending := pending
  handlers := []
  shown _ := none
  log := []

inductive Event
  | signIn (uid : String)
  | signOut
  /-- the listener `user = event` -/
  | userChanges
  /-- `getEventList` -/
  | list (showCompleted : Bool)
  /-- Save, on a new task -/
  | create (docId uuid : String) (data : FormData) (c : Clock)
  /-- a details page reads its task again -/
  | refresh (id : String)
  /-- an operation on a task a screen shows -/
  | operate (task : AppTask) (op : TaskOp) (c : Clock)
  /-- the next call of a handler under way -/
  | resume (i : ℕ)

variable {κ : Type} [DecidableEq κ] (key : AppTask → κ) (z : Zone)

/-! ## Steps -/

/-- The account in the path of `taskDBS`, which its first use takes from `user`. -/
def Session.owner (s : Session κ) : String := interpolated (s.taskDBS.getD s.user)

def Session.path (s : Session κ) : String := tasksPath s.owner

/-- Initialise `taskDBS`, if it is not. -/
def Session.touch (s : Session κ) : Session κ :=
  { s with taskDBS := some (s.taskDBS.getD s.user) }

/-- Address the store through `taskDBS`. -/
def Session.access (s : Session κ) : Session κ :=
  { s.touch with log := s.log ++ [⟨s.currentUser, s.path⟩] }

/-- What a call of a handler acts on. -/
def Session.world (h : Handler) (s : Session κ) : World κ where
  tasks := s.docs s.path
  money := s.user.elim 0 s.money
  fishMoney := s.fishMoney
  pending := s.pending
  event := h.event
  currMoney := h.currMoney

def Session.put (w : World κ) (s : Session κ) : Session κ :=
  { s with
    docs := Function.update s.docs s.path w.tasks
    money := s.user.elim s.money fun uid => Function.update s.money uid w.money
    fishMoney := w.fishMoney
    pending := w.pending }

/-- A call in a process whose `user` is known: `DatabaseServices()` throws without one. -/
def execFor (user : Option String) (c : Clock) (call : Call) (w : World κ) :
    Except Fault (World κ) :=
  if usesDatabaseServices call = true ∧ user = none then .error .nullCheck
  else exec key z c call w

/-- The next call of a handler. One that throws ends it. -/
def Session.advance (h : Handler) (s : Session κ) : Session κ × Handler :=
  match hc : h.calls with
  | [] => (s, h)
  | call :: rest =>
      -- `taskDBS` is evaluated before the call is made
      let s := if usesTaskDBS call then s.access else s
      match execFor key z s.user h.clock call (s.world h) with
      | .error _ => (s, { h with calls := [], keepsTasks := List.not_mem_nil })
      | .ok w => (s.put w, {
          clock := h.clock
          calls := rest
          event := w.event
          currMoney := w.currMoney
          keepsTasks := fun hmem => h.keepsTasks (hc ▸ List.mem_cons_of_mem call hmem) })

/-- `getEventList`. `taskDBS` is evaluated before the `user!` of the query. -/
def getEventList (showCompleted : Bool) (s : Session κ) : Session κ :=
  match s.user with
  | none => s.touch
  | some uid =>
      { s.access with
        shown := fun id => (s.docs s.path id).filter fun d =>
          d.userId = some uid && (showCompleted || !d.isCompleted) }

theorem clearTasks_notMem_createTask (c : Clock) (docId : String) (task : TaskDoc) :
    Call.clearTasks ∉ createTask z c docId task := by
  intro hmem
  rcases List.mem_cons.mp hmem with hcreate | hannounce
  · cases hcreate
  · rcases mem_addNotification hannounce with ⟨t, ht⟩ | ⟨fault, hfault⟩
    · cases ht
    · cases hfault

theorem clearTasks_notMem_calls (c : Clock) (task : AppTask) (op : TaskOp) :
    Call.clearTasks ∉ op.calls z c task :=
  fun hmem => concerns_calls (z := z) (c := c) rfl rfl op _ hmem

/-- Save, on a new task: `user!` comes first, then the document, then the reminder. -/
def save (docId uuid : String) (data : FormData) (c : Clock) (s : Session κ) : Session κ :=
  match s.user with
  | none => s
  | some uid =>
      let task := newTask z uid uuid data
      let r := s.advance key z {
        clock := c
        calls := createTask z c docId task
        event := none
        currMoney := 0
        keepsTasks := clearTasks_notMem_createTask z c docId task }
      { r.1 with handlers := s.handlers ++ [r.2] }

/-- A document's id is new when it is created. -/
def step (s : Session κ) : Event → Option (Session κ)
  | .signIn uid =>
      some { s with currentUser := some uid, userChanges := s.userChanges ++ [some uid] }
  | .signOut => some { s with currentUser := none, userChanges := s.userChanges ++ [none] }
  | .userChanges =>
      match s.userChanges with
      | [] => none
      | event :: rest => some { s with user := event, userChanges := rest }
  | .list showCompleted => some (getEventList showCompleted s)
  | .create docId uuid data c =>
      if (s.docs s.path docId).isSome then none else some (save key z docId uuid data c s)
  | .refresh id =>
      some (match s.docs s.path id with
        | none => s.access
        | some d => { s.access with shown := Function.update s.shown id (some d) })
  | .operate task op c =>
      some { s with
        handlers := s.handlers ++ [{
          clock := c
          calls := op.calls z c task
          event := none
          currMoney := 0
          keepsTasks := clearTasks_notMem_calls z c task op }] }
  | .resume i =>
      (s.handlers[i]?).map fun h =>
        let r := s.advance key z h
        { r.1 with handlers := s.handlers.set i r.2 }

/-! ## Isolation -/

/-- Every call on `taskDBS` made with an account signed in addressed its tasks. -/
def Isolated (s : Session κ) : Prop :=
  ∀ a ∈ s.log, ∀ uid, a.account = some uid → a.path = tasksPath uid

/-- Whether a step is a call on `taskDBS`. -/
def addresses (s : Session κ) : Event → Bool
  | .list _ => s.user.isSome
  | .create .. => s.user.isSome
  | .refresh _ => true
  | .resume i => (s.handlers[i]?.bind (·.calls.head?)).any usesTaskDBS
  | _ => false

/-- The account signed in, if one is, is the one in the path of `taskDBS`. -/
def SameAccount (s : Session κ) : Prop := ∀ uid, s.currentUser = some uid → s.owner = uid

/-- `taskDBS` is called by its own account only. -/
def Guard (s : Session κ) (e : Event) : Prop := addresses s e = true → SameAccount s

theorem tasksPath_injective : Function.Injective tasksPath := by
  intro u v h
  have huid : "users/" ++ u = "users/" ++ v := (String.append_left_inj "/tasks").mp h
  exact (String.append_right_inj "users/").mp huid

/-! ## What a step records -/

/-- The log after a step, which calls `taskDBS` or does not: the account and the
path are those of the state it starts in. -/
def logged (s : Session κ) (called : Bool) : List Access :=
  if called = true then s.log ++ [⟨s.currentUser, s.path⟩] else s.log

/-- A step logs its call, changes documents only at the path it logs, and leaves
the account in the path of `taskDBS`, once it is there. -/
structure Recorded (s s' : Session κ) (called : Bool) : Prop where
  log : s'.log = logged s called
  docs : ∀ path, s'.docs path ≠ s.docs path → called = true ∧ path = s.path
  taskDBS : called = true ∨ s.taskDBS.isSome = true → s'.taskDBS = some (s.taskDBS.getD s.user)

section

omit [DecidableEq κ]

variable {s s' : Session κ} {called : Bool}

/-- A step that leaves the documents. -/
theorem Recorded.of_docs (hlog : s'.log = logged s called) (hdocs : s'.docs = s.docs)
    (htaskDBS : called = true ∨ s.taskDBS.isSome = true →
      s'.taskDBS = some (s.taskDBS.getD s.user)) : Recorded s s' called :=
  ⟨hlog, fun path hpath => absurd (congrFun hdocs path) hpath, htaskDBS⟩

/-- A step that neither calls nor initialises `taskDBS`. -/
theorem Recorded.of_same (hlog : s'.log = s.log) (hdocs : s'.docs = s.docs)
    (htaskDBS : s'.taskDBS = s.taskDBS) : Recorded s s' false := by
  refine .of_docs hlog hdocs fun hused => ?_
  obtain ⟨owner, howner⟩ := Option.isSome_iff_exists.mp (hused.resolve_left (by simp))
  rw [htaskDBS, howner, Option.getD_some]

/-- After a step the log is isolated still when the call, if there was one, was
made by the account `taskDBS` belongs to. -/
theorem Recorded.isolated_iff (h : Recorded s s' called) (hs : Isolated s) :
    Isolated s' ↔ (called = true → SameAccount s) := by
  have hlog := h.log
  unfold logged at hlog
  by_cases hcalled : called = true
  · rw [if_pos hcalled] at hlog
    constructor
    · intro hs' _ uid huid
      -- the call just logged is one of those the log is about
      have hlast : (⟨s.currentUser, s.path⟩ : Access) ∈ s'.log := by
        rw [hlog]
        exact List.mem_append_right _ List.mem_cons_self
      exact tasksPath_injective (hs' _ hlast uid huid)
    · intro hsame a ha uid huid
      rw [hlog] at ha
      rcases List.mem_append.mp ha with hold | hnew
      · exact hs a hold uid huid
      · obtain rfl := List.mem_singleton.mp hnew
        exact congrArg tasksPath (hsame hcalled uid huid)
  · rw [if_neg hcalled] at hlog
    have hs' : Isolated s' := by
      intro a ha
      rw [hlog] at ha
      exact hs a ha
    exact iff_of_true hs' fun hc => absurd hc hcalled

theorem docs_put {w : World κ} {path : String} (h : (s.put w).docs path ≠ s.docs path) :
    path = s.path ∧ w.tasks ≠ s.docs s.path := by
  by_cases hpath : path = s.path
  · refine ⟨hpath, fun hsame => h ?_⟩
    rw [hpath, ← hsame]
    exact Function.update_self ..
  · exact absurd (Function.update_of_ne hpath ..) h

end

variable {key : AppTask → κ} {z : Zone} {s s' : Session κ}

/-- A call on something else leaves the documents. -/
theorem tasks_of_execFor {user : Option String} {c : Clock} {call : Call} {w w' : World κ}
    (hother : usesTaskDBS call = false) (hkeeps : call ≠ .clearTasks)
    (h : execFor key z user c call w = .ok w') : w'.tasks = w.tasks := by
  unfold execFor at h
  split at h
  · cases h
  · cases call with
    | create | updateData | removeItem => exact absurd hother (by simp [usesTaskDBS])
    | clearTasks => exact absurd rfl hkeeps
    | addMoney amt =>
        cases h
        rfl
    | _ => exact (exec_store rfl h).1

/-- The next call of a handler is recorded. -/
theorem advance_recorded (key : AppTask → κ) (z : Zone) (s : Session κ) (h : Handler) :
    Recorded s (s.advance key z h).1 (h.calls.head?.any usesTaskDBS) := by
  unfold Session.advance
  split
  · next hc =>
    rw [hc]
    exact .of_same rfl rfl rfl
  · next call rest hc =>
    have hhead : h.calls.head?.any usesTaskDBS = usesTaskDBS call := by
      rw [hc, List.head?_cons, Option.any_some]
    -- a handler of a task does not clear the collection
    have hkeeps : call ≠ .clearTasks := by
      rintro rfl
      exact h.keepsTasks (hc ▸ List.mem_cons_self)
    rw [hhead]
    by_cases hcall : usesTaskDBS call = true
    · simp only [hcall, if_true]
      split
      · exact .of_docs rfl rfl fun _ => rfl
      · exact ⟨rfl, fun path hpath => ⟨rfl, (docs_put hpath).1⟩, fun _ => rfl⟩
    · have hcall : usesTaskDBS call = false := by simpa using hcall
      simp only [hcall, Bool.false_eq_true, if_false]
      split
      · exact .of_same rfl rfl rfl
      · next w hw =>
        -- a call on something else leaves the documents it was given
        have hsame : w.tasks = s.docs s.path := tasks_of_execFor hcall hkeeps hw
        refine .of_same rfl (funext fun path => ?_) rfl
        by_contra hpath
        exact (docs_put hpath).2 hsame

/-- Every step is recorded. -/
theorem step_recorded {e : Event} (h : step key z s e = some s') :
    Recorded s s' (addresses s e) := by
  cases e with
  | signIn uid =>
      cases h
      exact .of_same rfl rfl rfl
  | signOut =>
      cases h
      exact .of_same rfl rfl rfl
  | operate task op c =>
      cases h
      exact .of_same rfl rfl rfl
  | userChanges =>
      rw [step] at h
      split at h
      · cases h
      · next event rest hchanges =>
        cases h
        exact .of_same rfl rfl rfl
  | list showCompleted =>
      cases h
      unfold getEventList addresses
      split
      · next hu =>
        rw [hu]
        exact .of_docs rfl rfl fun _ => rfl
      · next uid hu =>
        rw [hu]
        exact .of_docs rfl rfl fun _ => rfl
  | refresh id =>
      cases h
      split
      · exact .of_docs rfl rfl fun _ => rfl
      · exact .of_docs rfl rfl fun _ => rfl
  | create docId uuid data c =>
      rw [step] at h
      split at h
      · cases h
      · cases h
        unfold save addresses
        split
        · next hu =>
          rw [hu]
          exact .of_same rfl rfl rfl
        · next uid hu =>
          -- the document is the first call, made at once
          rw [hu]
          have hfirst := advance_recorded key z s {
            clock := c
            calls := createTask z c docId (newTask z uid uuid data)
            event := none
            currMoney := 0
            keepsTasks := clearTasks_notMem_createTask z c docId (newTask z uid uuid data) }
          exact ⟨hfirst.log, hfirst.docs, hfirst.taskDBS⟩
  | resume i =>
      rw [step, Option.map_eq_some_iff] at h
      obtain ⟨hd, hi, rfl⟩ := h
      have hnext := advance_recorded key z s hd
      rw [addresses, hi, Option.bind_some]
      exact ⟨hnext.log, hnext.docs, hnext.taskDBS⟩

/-! ## The account of `taskDBS` -/

/-- Once it is there, no step changes the account in the path. -/
theorem taskDBS_of_step {e : Event} {owner : Option String} (hs : s.taskDBS = some owner)
    (h : step key z s e = some s') : s'.taskDBS = some owner := by
  rw [(step_recorded h).taskDBS (.inr (by rw [hs]; rfl)), hs, Option.getD_some]

/-- **The first use decides**: from a call on `taskDBS` on, whoever signs in, its
path is that of the account `user` held when it was first used. -/
theorem owner_of_run {e : Event} (hcall : addresses s e = true) (h : step key z s e = some s')
    {es : List Event} {t : Session κ} (hrun : run (step key z) s' es = some t) :
    t.owner = s.owner := by
  have hfirst : s'.taskDBS = some (s.taskDBS.getD s.user) :=
    (step_recorded h).taskDBS (.inl hcall)
  have hlast : t.taskDBS = some (s.taskDBS.getD s.user) :=
    run_invariant _ (fun _ _ _ hs hstep => taskDBS_of_step hs hstep) hfirst hrun
  rw [Session.owner, hlast, Option.getD_some, Session.owner]

/-! ## Isolation of runs -/

/-- In an isolated run, a step taken with an account signed in changes the
documents of no other account. -/
theorem docs_of_isolated {e : Event} {uid : String} (h : step key z s e = some s')
    (hs : Isolated s) (hs' : Isolated s') (huid : s.currentUser = some uid) {path : String}
    (hpath : path ≠ tasksPath uid) : s'.docs path = s.docs path := by
  have hrecorded := step_recorded h
  by_contra hne
  obtain ⟨hcalled, rfl⟩ := hrecorded.docs path hne
  have howner : s.owner = uid := (hrecorded.isolated_iff hs).mp hs' hcalled uid huid
  exact hpath (congrArg tasksPath howner)

/-- **Account isolation.** In a run of the process every call on `taskDBS`
addresses the tasks of the account signed in exactly when each such call is made
while the account signed in, if there is one, is the one `user` held at the
first use of `taskDBS`. -/
theorem isolated_iff_sameAccount (key : AppTask → κ) (z : Zone) (account : Option String)
    (docs : String → String → Option TaskDoc) (money : String → ℤ)
    (pending : κ → Option DateTime) (es : List Event) :
    Always (step key z) Isolated (.launch account docs money pending) es
      ↔ Meets (step key z) Guard (.launch account docs money pending) es := by
  have hlaunch : Isolated (.launch account docs money pending : Session κ) := by
    intro a ha
    exact absurd ha List.not_mem_nil
  have hstep : ∀ s e s', True → Isolated s → step key z s e = some s' → (Isolated s' ↔ Guard s e) :=
    fun s e s' _ hs h => (step_recorded h).isolated_iff hs
  exact always_iff_meets (fun _ _ _ _ _ _ _ => trivial) hstep trivial hlaunch es

/-- Alice looks at her tasks and signs out; Bob signs in and creates one. -/
def changeOfAccount : List Event :=
  [.userChanges, .list false, .signOut, .signIn "bob", .userChanges, .userChanges,
    .create "doc" "uuid" (.untimed 1654041600000 .never) (noonOfJune 1)]

/-- Bob's task is created among Alice's. -/
theorem not_always_isolated :
    ¬ Always (step AppTask.id utc) Isolated
      (.launch (some "alice") (fun _ _ => none) (fun _ => 0) fun _ => none) changeOfAccount := by
  intro h
  have hlog : (run (step AppTask.id utc)
      (.launch (some "alice") (fun _ _ => none) (fun _ => 0) fun _ => none)
        changeOfAccount).map Session.log
      = some [⟨some "alice", "users/alice/tasks"⟩, ⟨some "bob", "users/alice/tasks"⟩] := by decide
  obtain ⟨s, hs, hlog⟩ := Option.map_eq_some_iff.mp hlog
  have hbob : "users/alice/tasks" = tasksPath "bob" :=
    h changeOfAccount (List.prefix_refl _) s hs ⟨some "bob", "users/alice/tasks"⟩
      (hlog ▸ by simp) "bob" rfl
  exact absurd hbob (by decide)

end AquaFocus.TaskStore
