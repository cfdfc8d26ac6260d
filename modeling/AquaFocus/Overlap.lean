/-
Completions that overlap.

A completion is awaited call by call, and its dialog stays open until the user
closes it, so other completions begin before it ends: of other tasks, or of the
same task from another screen or another phone. Here every completion is a
client with the calls it has still to make and the two variables it keeps, and
the calls of all of them interleave. Dialogs may be closed in any order, although
the one on top can only be closed first. A second phone has a home screen and
notifications of its own, which neither the coins nor the streak depend on.

No call throws (`Ready.step`), every coin that is due is credited
(`total_run`), and what is wrong in the end is the home screen
(`home_agrees_iff`), or how often one task was paid for (`both_paid`).
-/
import AquaFocus.TaskOps
import AquaFocus.Lib.Interleave

set_option autoImplicit false

open Dart Runs Interleave

namespace AquaFocus.Overlap

/-! ## Completions under way -/

/-- A task that is tapped, on a phone with this zone and this clock. -/
structure Tap where
  zone : Zone
  clock : Clock
  task : AppTask

/-- A completion under way: the calls it has still to make, and its variables. -/
structure Handler where
  zone : Zone
  clock : Clock
  calls : List Call
  event : Option AppTask
  currMoney : ℤ

/-- `ifEventCompleted`: what a tap on a task starts. -/
def ifEventCompleted (z : Zone) (c : Clock) (event : AppTask) : List Call :=
  if event.isCompleted then [] else completion z c event

variable {κ : Type} [DecidableEq κ] (key : AppTask → κ)

/-- What a handler's call acts on. -/
def seenBy (w : World κ) (h : Handler) : World κ :=
  { w with event := h.event, currMoney := h.currMoney }

/-- The next call of a handler. One that throws ends it. -/
def act (w : World κ) (h : Handler) (_ : Unit) : Option (World κ × Handler) :=
  match h.calls with
  | [] => none
  | call :: calls =>
      match exec key h.zone h.clock call (seenBy w h) with
      | .ok w' =>
          some (w', { h with calls := calls, event := w'.event, currMoney := w'.currMoney })
      | .error _ => some (w, { h with calls := [] })

/-- The account, and the tasks that are going to be tapped. -/
def start (w : World κ) (taps : List Tap) : Config (World κ) Handler :=
  ⟨w, taps.map fun t => ⟨t.zone, t.clock, ifEventCompleted t.zone t.clock t.task, none, 0⟩⟩

/-- Every completion has ended. -/
def Finished (c : Config (World κ) Handler) : Prop := ∀ h ∈ c.clients, h.calls = []

variable {key} {z : Zone}

theorem act_of_ok {w w' : World κ} {h : Handler} {call : Call} {calls : List Call} (u : Unit)
    (hcalls : h.calls = call :: calls)
    (hexec : exec key h.zone h.clock call (seenBy w h) = .ok w') :
    act key w h u
      = some (w', { h with calls := calls, event := w'.event, currMoney := w'.currMoney }) := by
  simp only [act, hcalls, hexec]

/-- Whatever has been done, the completions can be brought to their end. -/
theorem exists_finished (c : Config (World κ) Handler) :
    ∃ es c', run (step (act key)) c es = some c' ∧ Finished c' := by
  have hstep : ∀ (w : World κ) (h : Handler), h.calls.length ≠ 0 →
      ∃ a w' h', act key w h a = some (w', h') ∧ h'.calls.length < h.calls.length := by
    intro w h hne
    obtain ⟨call, calls, hcalls⟩ := List.exists_cons_of_length_pos (Nat.pos_of_ne_zero hne)
    have hlt : calls.length < h.calls.length := by
      rw [hcalls]
      exact Nat.lt_succ_self _
    cases hexec : exec key h.zone h.clock call (seenBy w h) with
    | ok w' => exact ⟨(), _, _, act_of_ok () hcalls hexec, hlt⟩
    | error fault =>
        have hact : act key w h () = some (w, { h with calls := [] }) := by
          simp only [act, hcalls, hexec]
        exact ⟨(), _, _, hact, Nat.zero_lt_of_lt hlt⟩
  obtain ⟨es, c', hrun, hzero⟩ := exists_run_to_end hstep c
  exact ⟨es, c', hrun, fun h hh => List.length_eq_zero_iff.mp (hzero h hh)⟩

/-! ## Nothing throws -/

/-- The calls a completion has still to make, on tasks with the ids `ids`: it
writes what keeps a document well formed, announces only what it has read
(`fetched`), and ends with the credit of what it adds to the home screen. -/
def Safe (ids : Set String) : Bool → List Call → Prop
  | _, [] => True
  | fetched, .updateData id update :: calls =>
      id ∈ ids ∧ (∀ d : TaskDoc, d.WellFormed → (update.apply d).WellFormed)
        ∧ Safe ids fetched calls
  | _, .getSingle id :: calls => id ∈ ids ∧ Safe ids true calls
  | fetched, .addNotification :: calls => fetched = true ∧ Safe ids fetched calls
  | _, .updateHomeMoney moneyEarned :: calls => calls = [.addMoney moneyEarned]
  | fetched, .getMoney :: calls => Safe ids fetched calls
  | fetched, .addMoney _ :: calls => Safe ids fetched calls
  | fetched, .cancel _ :: calls => Safe ids fetched calls
  | fetched, .showDialog _ :: calls => Safe ids fetched calls
  | _, _ :: _ => False

/-- What holds of every state of a run. -/
structure Ready (ids : Set String) (c : Config (World κ) Handler) : Prop where
  stored : ∀ id ∈ ids, (c.shared.tasks id).isSome = true
  wellFormed : c.shared.WellFormed
  safe : ∀ h ∈ c.clients, Safe ids h.event.isSome h.calls
  events : ∀ h ∈ c.clients, ∀ event, h.event = some event → event.WellFormed

variable {ids : Set String} {w : World κ}

omit [DecidableEq κ] in
theorem isSome_update {id : String} {d : TaskDoc}
    (h : ∀ id ∈ ids, (w.tasks id).isSome = true) :
    ∀ x ∈ ids, (Function.update w.tasks id (some d) x).isSome = true := by
  intro x hx
  by_cases hid : x = id
  · rw [hid, Function.update_self]
    rfl
  · rw [Function.update_of_ne hid]
    exact h x hx

/-- One call of a completion. -/
theorem exec_safe {c : Clock} {call : Call} {calls : List Call}
    (hstored : ∀ id ∈ ids, (w.tasks id).isSome = true) (hw : w.WellFormed)
    (hevent : ∀ event, w.event = some event → event.WellFormed)
    (hsafe : Safe ids w.event.isSome (call :: calls)) :
    ∃ w', exec key z c call w = .ok w' ∧ (∀ id ∈ ids, (w'.tasks id).isSome = true)
      ∧ w'.WellFormed ∧ (∀ event, w'.event = some event → event.WellFormed)
      ∧ Safe ids w'.event.isSome calls := by
  cases call with
  | updateData id update =>
      obtain ⟨hid, hupdate, hrest⟩ := hsafe
      obtain ⟨d, hd⟩ := Option.isSome_iff_exists.mp (hstored id hid)
      refine ⟨_, exec_updateData update hd, isSome_update hstored, ?_, hevent, hrest⟩
      exact hw.update rfl fun d' hd' => Option.some.inj hd' ▸ hupdate d (hw id d hd)
  | getSingle id =>
      obtain ⟨hid, hrest⟩ := hsafe
      obtain ⟨d, hd⟩ := Option.isSome_iff_exists.mp (hstored id hid)
      refine ⟨_, rfl, hstored, hw, fun event hread => ?_, ?_⟩
      · simp only [hd, Option.map_some, Option.some.injEq] at hread
        exact hread ▸ (hw id d hd).read id
      · simpa only [hd, Option.map_some, Option.isSome_some] using hrest
  | addNotification =>
      obtain ⟨hfetched, hrest⟩ := hsafe
      obtain ⟨event, he⟩ := Option.isSome_iff_exists.mp hfetched
      exact ⟨_, exec_addNotification (hevent event he) he, hstored, hw, hevent, hrest⟩
  | updateHomeMoney m =>
      have hrest : calls = [.addMoney m] := hsafe
      exact ⟨_, rfl, hstored, hw, hevent, by rw [hrest]; exact trivial⟩
  | getMoney => exact ⟨_, rfl, hstored, hw, hevent, hsafe⟩
  | addMoney amt => exact ⟨_, rfl, hstored, hw, hevent, hsafe⟩
  | cancel task => exact ⟨_, rfl, hstored, hw, hevent, hsafe⟩
  | showDialog m => exact ⟨_, rfl, hstored, hw, hevent, hsafe⟩
  | _ => exact hsafe.elim

theorem act_cases {w w' : World κ} {h h' : Handler} {u : Unit}
    (hact : act key w h u = some (w', h')) : ∃ call calls, h.calls = call :: calls
      ∧ (exec key h.zone h.clock call (seenBy w h) = .ok w'
            ∧ h' = { h with calls := calls, event := w'.event, currMoney := w'.currMoney }
        ∨ ∃ fault, exec key h.zone h.clock call (seenBy w h) = .error fault) := by
  unfold act at hact
  split at hact
  · cases hact
  · next call calls hcalls =>
    refine ⟨call, calls, hcalls, ?_⟩
    split at hact
    · next v hexec =>
      cases hact
      exact .inl ⟨hexec, rfl⟩
    · next fault hexec => exact .inr ⟨fault, hexec⟩

/-- **No call throws**: a step is the next call of one completion, and what holds
of the state before it holds after it. -/
theorem Ready.step {c c' : Config (World κ) Handler} {e : ℕ × Unit} (hc : Ready ids c)
    (hstep : Interleave.step (act key) c e = some c') :
    Ready ids c' ∧ ∃ h call calls, c.clients[e.1]? = some h ∧ h.calls = call :: calls
      ∧ exec key h.zone h.clock call (seenBy c.shared h) = .ok c'.shared
      ∧ c'.clients = c.clients.set e.1 { h with
          calls := calls, event := c'.shared.event, currMoney := c'.shared.currMoney } := by
  obtain ⟨h, w', h', hh, hact, rfl⟩ := step_cases hstep
  have hmem : h ∈ c.clients := List.mem_of_getElem? hh
  obtain ⟨call, calls, hcalls, hcase⟩ := act_cases hact
  have hsafe : Safe ids h.event.isSome (call :: calls) := hcalls ▸ hc.safe h hmem
  obtain ⟨v, hexec, hstored, hwf, hevents, hrest⟩ := exec_safe (z := h.zone)
    (c := h.clock) (w := seenBy c.shared h) hc.stored hc.wellFormed (hc.events h hmem) hsafe
  rcases hcase with ⟨hok, rfl⟩ | ⟨fault, hfault⟩
  · rw [hok, Except.ok.injEq] at hexec
    subst hexec
    refine ⟨⟨hstored, hwf, ?_, ?_⟩, h, call, calls, hh, hcalls, hok, rfl⟩
    · exact forall_mem_set e.1 hc.safe hrest
    · exact forall_mem_set e.1 hc.events hevents
  · rw [hfault] at hexec
    cases hexec

/-! ## The beginning -/

/-- The tapped tasks are well formed, and stored. -/
def Tapped (w : World κ) (taps : List Tap) : Prop :=
  ∀ t ∈ taps, t.task.WellFormed ∧ (w.tasks t.task.id).isSome = true

theorem safe_removeNotification {c : Clock} {task : AppTask} {calls : List Call} (b : Bool)
    (ht : task.WellFormed) (h : Safe ids b calls) :
    Safe ids b (removeNotification z c task ++ calls) := by
  obtain ⟨o, ho⟩ := isScheduledEvent_ok z c ht
  unfold removeNotification
  rw [ho]
  cases o with
  | none => exact h
  | some t => exact h

theorem safe_reschedule {c : Clock} {task : AppTask} {calls : List Call} {s : ℤ} (hs : 0 ≤ s)
    (hid : task.id ∈ ids) (next : Option DateTime) (h : ∀ b, Safe ids b calls) (b : Bool) :
    Safe ids b (reschedule z c task s next ++ calls) := by
  cases next with
  | none => exact h b
  | some t =>
      refine ⟨hid, fun d hd => hd.reschedule _ hs _ _, ?_⟩
      unfold remind
      by_cases htime : task.hasTime = true
      · rw [if_pos htime]
        exact ⟨hid, rfl, h true⟩
      · rw [if_neg htime]
        exact h b

theorem safe_completion (c : Clock) {task : AppTask} (ht : task.WellFormed)
    (hid : task.id ∈ ids) : Safe ids false (completion z c task) := by
  obtain ⟨next, hnext⟩ := nextTimeOf_ok (z := z) (c := c) ht
  have hs := ht.streak_nonneg
  rw [completion_of_ok hnext]
  apply safe_removeNotification false ht
  refine ⟨hid, fun d hd => hd.completed, ?_⟩
  by_cases hpaid : giveMoney z c task = true
  · rw [if_pos hpaid, List.cons_append, List.append_assoc]
    have hrest : ∀ b, Safe ids b ([.showDialog (some (moneyAdded task)),
        .updateHomeMoney (moneyAdded task)] ++ [.addMoney (moneyAdded task)]) := fun _ => rfl
    exact safe_reschedule (z := z) (c := c) (by omega) hid next hrest false
  · rw [if_neg hpaid]
    have hrest : ∀ b, Safe ids b [.showDialog none] := fun _ => trivial
    exact safe_reschedule hs hid next hrest false

omit [DecidableEq κ] in
theorem ready_start {taps : List Tap} (hw : w.WellFormed) (htaps : Tapped w taps) :
    Ready (fun id => (w.tasks id).isSome = true) (start w taps) where
  stored _ hid := hid
  wellFormed := hw
  safe := by
    intro h hh
    obtain ⟨⟨z, c, task⟩, ht, rfl⟩ := List.mem_map.mp hh
    obtain ⟨hwf, hid⟩ := htaps _ ht
    simp only [ifEventCompleted, Option.isSome_none]
    by_cases hdone : task.isCompleted = true
    · rw [if_pos hdone]
      exact trivial
    · rw [if_neg hdone]
      exact safe_completion c hwf hid
  events := by
    intro h hh event hevent
    obtain ⟨t, -, rfl⟩ := List.mem_map.mp hh
    cases hevent

/-! ## The balance -/

/-- What a call adds to the balance. -/
def credit : Call → ℤ
  | .addMoney amt => amt
  | _ => 0

/-- What a completion has still to add. -/
def due (h : Handler) : ℤ := (h.calls.map credit).sum

/-- The balance, with all that is still to be added to it. -/
def total (c : Config (World κ) Handler) : ℤ := c.shared.money + (c.clients.map due).sum

theorem sum_credit_eq_zero {calls : List Call} (h : ∀ call ∈ calls, credit call = 0) :
    (calls.map credit).sum = 0 := by
  apply List.sum_eq_zero
  intro x hx
  obtain ⟨call, hcall, rfl⟩ := List.mem_map.mp hx
  exact h call hcall

theorem credit_of_writes {call : Call} (h : call.writes = false) : credit call = 0 := by
  cases call <;> first | rfl | cases h

/-- All that a completion credits is its coins. -/
theorem credit_completion (c : Clock) {task : AppTask} (ht : task.WellFormed) :
    ((completion z c task).map credit).sum = coins z c task := by
  obtain ⟨next, hnext⟩ := nextTimeOf_ok (z := z) (c := c) ht
  have hremove : ((removeNotification z c task).map credit).sum = 0 :=
    sum_credit_eq_zero fun call hcall =>
      credit_of_writes (removeNotification_writes z c task call hcall)
  have hreschedule : ∀ s, ((reschedule z c task s next).map credit).sum = 0 := by
    intro s
    refine sum_credit_eq_zero fun call hcall => ?_
    rcases mem_reschedule hcall with ⟨t, -, rfl⟩ | hwrites
    · rfl
    · exact credit_of_writes hwrites
  rw [completion_of_ok hnext, coins]
  by_cases hpaid : giveMoney z c task = true
  · simp [hpaid, hremove, hreschedule, credit]
  · simp [hpaid, hremove, hreschedule, credit]

/-- What a call does to the balance, and to the home screen. -/
theorem exec_money {c : Clock} {call : Call} {w' : World κ} (h : exec key z c call w = .ok w') :
    w'.money = w.money + credit call ∧ w'.fishMoney
      = (match call with
          | .updateHomeMoney moneyEarned => moneyEarned + w.currMoney
          | _ => w.fishMoney) := by
  have hnone : w.money = w.money + 0 := (add_zero w.money).symm
  cases call with
  | addMoney amt =>
      cases h
      exact ⟨rfl, rfl⟩
  | updateData id update =>
      simp only [exec] at h
      split at h <;> cases h
      exact ⟨hnone, rfl⟩
  | addNotification =>
      obtain ⟨pending, rfl⟩ := pending_of_addNotification h
      exact ⟨hnone, rfl⟩
  | throws fault => cases h
  | _ =>
      cases h
      exact ⟨hnone, rfl⟩

/-- A step leaves the total as it is, and the home screen too unless it is what
the step writes. -/
theorem Ready.step_total {c c' : Config (World κ) Handler} {e : ℕ × Unit} (hc : Ready ids c)
    (hstep : Interleave.step (act key) c e = some c') : total c' = total c := by
  obtain ⟨-, h, call, calls, hh, hcalls, hexec, hclients⟩ := hc.step hstep
  have hmoney := (exec_money hexec).1
  have hsum := sum_map_set due { h with
    calls := calls, event := c'.shared.event, currMoney := c'.shared.currMoney } c.clients e.1 h hh
  have hdue : due h = credit call + (calls.map credit).sum := by
    rw [due, hcalls, List.map_cons, List.sum_cons]
  unfold total
  rw [hclients, hsum, hmoney, hdue]
  simp only [due, seenBy]
  omega

/-- **Every coin is credited**, in whatever order the calls come. -/
theorem total_run {c c' : Config (World κ) Handler} {es : List (ℕ × Unit)} (hc : Ready ids c)
    (hrun : run (step (act key)) c es = some c') : Ready ids c' ∧ total c' = total c := by
  have hstep : ∀ s e s', (Ready ids s ∧ total s = total c) → step (act key) s e = some s' →
      Ready ids s' ∧ total s' = total c :=
    fun s e s' hs hstep => ⟨(hs.1.step hstep).1, (hs.1.step_total hstep).trans hs.2⟩
  exact run_invariant _ hstep ⟨hc, rfl⟩ hrun

omit [DecidableEq κ] in
theorem total_of_finished {c : Config (World κ) Handler} (hc : Finished c) :
    total c = c.shared.money := by
  have hzero : ∀ x ∈ c.clients.map due, x = 0 := by
    intro x hx
    obtain ⟨h, hh, rfl⟩ := List.mem_map.mp hx
    rw [due, hc h hh]
    rfl
  rw [total, List.sum_eq_zero hzero, add_zero]

/-! ## The home screen -/

/-- A call of the Back button to the home screen. -/
def toHome : Call → Bool
  | .updateHomeMoney _ => true
  | _ => false

/-- A completion that pays has its dialog still to close. -/
def Pays (h : Handler) : Prop := h.calls.any toHome = true

/-- A completion that does not pay credits nothing. -/
theorem due_of_not_pays {c : Clock} {task : AppTask} (ht : task.WellFormed)
    (h : ¬ Pays ⟨z, c, ifEventCompleted z c task, none, 0⟩) :
    due ⟨z, c, ifEventCompleted z c task, none, 0⟩ = 0 := by
  unfold Pays ifEventCompleted at h
  unfold due ifEventCompleted
  by_cases hdone : task.isCompleted = true
  · rw [if_pos hdone]
    rfl
  · rw [if_neg hdone] at h
    rw [if_neg hdone, credit_completion c ht]
    obtain ⟨next, hnext⟩ := nextTimeOf_ok (z := z) (c := c) ht
    by_cases hpaid : giveMoney z c task = true
    · rw [completion_of_ok hnext, if_pos hpaid] at h
      simp [toHome] at h
    · exact if_neg hpaid

/-- With no such dialog to close, the home screen shows the balance, and what is
on the way to it. -/
def Agrees (c : Config (World κ) Handler) : Prop :=
  (∀ h ∈ c.clients, ¬ Pays h) → c.shared.fishMoney = total c

/-- The dialog that is closed last has the balance of that moment, with what the
other completions have then still to add. `OverlapReads.lean` says it of the order
of the calls. -/
def LastIsFresh (c : Config (World κ) Handler) (e : ℕ × Unit) : Prop :=
  ∀ h m calls, c.clients[e.1]? = some h → h.calls = .updateHomeMoney m :: calls →
    (∀ j h', j ≠ e.1 → c.clients[j]? = some h' → ¬ Pays h') → h.currMoney = total c - due h

omit [DecidableEq κ] in
theorem pays_cons {h : Handler} {call : Call} {calls : List Call}
    (hcalls : h.calls = call :: calls) :
    Pays h ↔ toHome call = true ∨ calls.any toHome = true := by
  rw [Pays, hcalls, List.any_cons, Bool.or_eq_true]

omit [DecidableEq κ] in
/-- After its call to the home screen a completion has its credit left. -/
theorem Ready.back {c : Config (World κ) Handler} (hc : Ready ids c) {i : ℕ} {h : Handler} {m : ℤ}
    {calls : List Call} (hh : c.clients[i]? = some h)
    (hcalls : h.calls = .updateHomeMoney m :: calls) : calls = [.addMoney m] ∧ due h = m := by
  have hsafe := hc.safe h (List.mem_of_getElem? hh)
  rw [hcalls] at hsafe
  have hrest : calls = [.addMoney m] := hsafe
  rw [due, hcalls, hrest]
  exact ⟨rfl, by simp [credit]⟩

omit [DecidableEq κ] in
theorem lastIsFresh_iff {c : Config (World κ) Handler} {e : ℕ × Unit} {h : Handler} {m : ℤ}
    {calls : List Call} (hh : c.clients[e.1]? = some h)
    (hcalls : h.calls = .updateHomeMoney m :: calls) :
    LastIsFresh c e ↔ ((∀ j q, j ≠ e.1 → c.clients[j]? = some q → ¬ Pays q) →
      h.currMoney = total c - due h) := by
  unfold LastIsFresh
  constructor
  · intro hl hothers
    exact hl h m calls hh hcalls hothers
  · intro hl h' m' calls' hh' _ hothers
    rw [hh, Option.some.injEq] at hh'
    exact hh' ▸ hl hothers

/-- What a step does to the agreement: nothing, unless it is the call to the home
screen, and then it is up to the balance the dialog has. -/
theorem Ready.agrees_step {c c' : Config (World κ) Handler} {e : ℕ × Unit} (hc : Ready ids c)
    (hstep : Interleave.step (act key) c e = some c') :
    ((Agrees c' ↔ Agrees c) ∧ LastIsFresh c e)
      ∨ Agrees c ∧ (Agrees c' ↔ LastIsFresh c e) := by
  have htotal := hc.step_total hstep
  obtain ⟨-, h, call, calls, hh, hcalls, hexec, hclients⟩ := hc.step hstep
  have hfish := (exec_money hexec).2
  have hpays := pays_cons hcalls
  unfold Agrees
  rw [hclients, htotal, forall_mem_set_iff _ hh, forall_mem_iff hh]
  by_cases hhome : toHome call = true
  · -- the Back button: what the others have to close decides whether it is the last
    obtain ⟨m, rfl⟩ : ∃ m, call = .updateHomeMoney m := by
      cases call <;> first | exact ⟨_, rfl⟩ | cases hhome
    obtain ⟨hrest, hdue⟩ := hc.back hh hcalls
    refine .inr ⟨fun hall => absurd (hpays.mpr (.inl rfl)) hall.1, ?_⟩
    rw [lastIsFresh_iff hh hcalls, hfish, hdue]
    have hnot : ¬ Pays { h with
        calls := calls, event := c'.shared.event, currMoney := c'.shared.currMoney } := by
      simp [Pays, hrest, toHome]
    constructor
    · intro ha hothers
      have := ha ⟨hnot, hothers⟩
      simp only [seenBy] at this
      omega
    · rintro hl ⟨-, hothers⟩
      have := hl hothers
      simp only [seenBy]
      omega
  · have hsame : c'.shared.fishMoney = c.shared.fishMoney := by
      rw [hfish]
      split
      · exact absurd rfl hhome
      · rfl
    have hrest : Pays { h with
        calls := calls, event := c'.shared.event, currMoney := c'.shared.currMoney } ↔ Pays h := by
      rw [hpays, or_iff_right hhome]
      rfl
    refine .inl ⟨by rw [hsame, hrest], fun h' m calls' hh' hcalls' => ?_⟩
    rw [hh, Option.some.injEq] at hh'
    rw [← hh', hcalls, List.cons.injEq] at hcalls'
    exact absurd (hcalls'.1 ▸ rfl) hhome

/-- `getNameAndMoney`: the home screen has loaded the balance. -/
def atHome (w : World κ) : World κ := { w with fishMoney := w.money }

/-- **The home screen shows the balance** when all completions have ended,
exactly when the dialog that was closed last had the balance of that moment. -/
theorem home_agrees_iff (hw : w.WellFormed) {taps : List Tap}
    (htaps : Tapped w taps) :
    ∀ es c, run (step (act key)) (start (atHome w) taps) es = some c → Finished c →
      (c.shared.fishMoney = c.shared.money
        ↔ Meets (step (act key)) LastIsFresh (start (atHome w) taps) es) := by
  intro es c hrun hfinished
  have hready := ready_start (w := atHome w) hw htaps
  have hstart : Agrees (start (atHome w) taps) := by
    intro hclosed
    have hzero : ∀ x ∈ (start (atHome w) taps).clients.map due, x = 0 := by
      intro x hx
      obtain ⟨h, hh, rfl⟩ := List.mem_map.mp hx
      have hnot := hclosed h hh
      obtain ⟨⟨z, c, task⟩, ht, rfl⟩ := List.mem_map.mp hh
      exact due_of_not_pays (htaps _ ht).1 hnot
    rw [total, List.sum_eq_zero hzero, add_zero]
    rfl
  have hinv : ∀ s e s', Ready (fun id => (w.tasks id).isSome = true) s → True →
      step (act key) s e = some s' → Ready (fun id => (w.tasks id).isSome = true) s' :=
    fun s e s' hs _ hstep => (hs.step hstep).1
  have hiff : ∀ s e s', Ready (fun id => (w.tasks id).isSome = true) s → Agrees s → True →
      step (act key) s e = some s' → (Agrees s' ↔ LastIsFresh s e) := by
    intro s e s' hs ha _ hstep
    rcases hs.agrees_step hstep with ⟨hsame, hfresh⟩ | ⟨-, hiff⟩
    · exact iff_of_true (hsame.mpr ha) hfresh
    · exact hiff
  have hlost : ∀ s e s', Ready (fun id => (w.tasks id).isSome = true) s → ¬ Agrees s → True →
      step (act key) s e = some s' → ¬ Agrees s' := by
    intro s e s' hs ha _ hstep
    rcases hs.agrees_step hstep with ⟨hsame, -⟩ | ⟨hbefore, -⟩
    · exact fun ha' => ha (hsame.mp ha')
    · exact absurd hbefore ha
  rw [← run_iff_meets hinv hiff hlost hready hstart (fun _ _ => trivial) hrun]
  -- in the end no dialog is open, and nothing is on the way
  have hclosed : ∀ h ∈ c.clients, ¬ Pays h := by
    intro h hh
    simp [Pays, hfinished h hh]
  unfold Agrees
  rw [total_of_finished hfinished]
  exact ⟨fun h _ => h, fun h => h hclosed⟩

/-- A task to be done once, and an account with two of them. -/
def errand (id : String) : TaskDoc where
  title := "errand"
  id := id
  description := none
  date := 0
  userId := some "u"
  isCompleted := false
  hasTime := false
  time := none
  repeats := .never
  reminder := some .never
  tag := none
  streak := 0
  prevCompletionTime := 0

def errands : World String :=
  { World.empty with
    tasks := fun id => if id = "a" ∨ id = "b" then some (errand id) else none
    money := 100 }

/-- A phone in UTC whose clock was read at this many milliseconds. -/
def phone (ms : ℤ) (id : String) (d : TaskDoc) : Tap :=
  ⟨.fixed .utc, .read (.fixed .utc) (.ofMillis ms), .fromDS id d⟩

def bothErrands : List Tap := [phone 0 "a" (errand "a"), phone 0 "b" (errand "b")]

/-- The second dialog is shown over the first, so it is closed before it. -/
def stacked : List (ℕ × Unit) :=
  [(0, ()), (0, ()), (0, ()), (1, ()), (1, ()), (1, ()), (1, ()), (1, ()), (0, ()), (0, ())]

omit [DecidableEq κ] in
theorem finished_of_calls {c : Config (World κ) Handler} {n : ℕ}
    (h : c.clients.map (·.calls) = List.replicate n []) : Finished c := by
  intro p hp
  have hmem : p.calls ∈ c.clients.map (·.calls) := List.mem_map_of_mem hp
  rw [h] at hmem
  exact List.eq_of_mem_replicate hmem

/-- The home screen shows the five coins of one errand. -/
theorem not_home_agrees :
    ∃ c, run (step (act AppTask.id)) (start (atHome errands) bothErrands) stacked = some c
      ∧ Finished c ∧ c.shared.money = 110 ∧ c.shared.fishMoney = 105 := by
  have heval : (run (step (act AppTask.id)) (start (atHome errands) bothErrands) stacked).map
      (fun c => (c.shared.money, c.shared.fishMoney, c.clients.map (·.calls)))
      = some (110, 105, List.replicate 2 []) := rfl
  obtain ⟨c, hrun, hend⟩ := Option.map_eq_some_iff.mp heval
  rw [Prod.mk.injEq, Prod.mk.injEq] at hend
  exact ⟨c, hrun, finished_of_calls hend.2.2, hend.1, hend.2.1⟩

theorem errands_wellFormed : errands.WellFormed := by
  intro id d hd
  simp only [errands, Option.ite_none_right_eq_some, Option.some.injEq] at hd
  rw [← hd.2]
  exact ⟨by simp [errand], by simp [errand], le_refl 0⟩

theorem home_agrees_iff_errands :
    Tapped errands bothErrands
      ∧ ∀ es c, run (step (act AppTask.id)) (start (atHome errands) bothErrands) es = some c →
        Finished c → (c.shared.fishMoney = c.shared.money
          ↔ Meets (step (act AppTask.id)) LastIsFresh (start (atHome errands) bothErrands) es) := by
  have htapped : Tapped errands bothErrands := by
    intro t ht
    simp only [bothErrands, List.mem_cons, List.not_mem_nil, or_false] at ht
    rcases ht with rfl | rfl
    · exact ⟨(errands_wellFormed "a" _ rfl).read "a", rfl⟩
    · exact ⟨(errands_wellFormed "b" _ rfl).read "b", rfl⟩
  exact ⟨htapped, home_agrees_iff errands_wellFormed htapped⟩

/-! ## One task, completed twice -/

/-- A completion has its streak still to write. -/
def Advances (id : String) (streak : ℤ) (h : Handler) : Prop :=
  ∃ p date time, Call.updateData id (.reschedule p streak date time) ∈ h.calls

/-- The completions write this streak to the document, or none; and until all of
them have it still to write, it is the stored one. -/
structure Streaks (id : String) (streak : ℤ) (c : Config (World κ) Handler) : Prop where
  writes : ∀ h ∈ c.clients, ∀ update, Call.updateData id update ∈ h.calls →
    update = .completed ∨ ∃ p date time, update = .reschedule p streak date time
  stored : (∀ h ∈ c.clients, Advances id streak h)
    ∨ ∃ d, c.shared.tasks id = some d ∧ d.streak = streak
  some_client : c.clients ≠ []

theorem Streaks.step {id : String} {streak : ℤ} {c c' : Config (World κ) Handler} {e : ℕ × Unit}
    (hs : Streaks id streak c) (hc : Ready ids c) (hid : id ∈ ids)
    (hstep : Interleave.step (act key) c e = some c') : Streaks id streak c' := by
  obtain ⟨hc', h, call, calls, hh, hcalls, hexec, hclients⟩ := hc.step hstep
  have hmem : h ∈ c.clients := List.mem_of_getElem? hh
  have hown := hs.writes h hmem
  rw [hcalls] at hown
  refine ⟨?_, ?_, ?_⟩
  · rw [hclients]
    exact forall_mem_set e.1 hs.writes fun update hu => hown update (List.mem_cons_of_mem call hu)
  · by_cases hwrite : ∃ p date time, call = .updateData id (.reschedule p streak date time)
    · -- the streak is written
      obtain ⟨p, date, time, rfl⟩ := hwrite
      obtain ⟨d, hd⟩ := Option.isSome_iff_exists.mp (hc.stored id hid)
      have hseen : (seenBy c.shared h).tasks id = some d := hd
      rw [exec_updateData _ hseen, Except.ok.injEq] at hexec
      exact .inr ⟨_, by rw [← hexec]; exact Function.update_self .., rfl⟩
    · rcases hs.stored with hall | ⟨d, hd, hstreak⟩
      · -- the completion has the same write before it
        left
        rw [hclients]
        refine forall_mem_set e.1 hall ?_
        obtain ⟨p, date, time, hmem'⟩ := hall h hmem
        rw [hcalls, List.mem_cons] at hmem'
        exact ⟨p, date, time, hmem'.resolve_left fun heq => hwrite ⟨p, date, time, heq.symm⟩⟩
      · right
        rcases exec_document hexec id with hsame | hnone | ⟨data, rfl, -⟩
          | ⟨update, d₁, rfl, hd₁, hd'⟩
        · exact ⟨d, hsame.trans hd, hstreak⟩
        · have hsome := hc'.stored id hid
          rw [hnone] at hsome
          cases hsome
        · have hsafe := hc.safe h hmem
          rw [hcalls] at hsafe
          exact hsafe.elim
        · -- only the first write of a completion is left, and it keeps the streak
          have hsame : d₁ = d := Option.some.inj (hd₁.symm.trans hd)
          rcases hown update List.mem_cons_self with rfl | ⟨p, date, time, rfl⟩
          · exact ⟨_, hd', by rw [← hstreak, ← hsame]; rfl⟩
          · exact absurd ⟨p, date, time, rfl⟩ hwrite
  · rw [hclients]
    intro hnil
    rw [List.set_eq_nil_iff] at hnil
    exact hs.some_client hnil

/-- What a completion that pays writes to its document: the streak, one up. -/
theorem mem_completion {c : Clock} {task : AppTask} (ht : task.WellFormed)
    (hpaid : giveMoney z c task = true) {update : TaskUpdate}
    (h : Call.updateData task.id update ∈ completion z c task) :
    update = .completed ∨ ∃ p date time, update = .reschedule p (task.streak + 1) date time := by
  obtain ⟨next, hnext⟩ := nextTimeOf_ok (z := z) (c := c) ht
  rw [completion_of_ok hnext, if_pos hpaid] at h
  simp only [List.mem_append, List.mem_cons, List.not_mem_nil, or_false, reduceCtorEq, false_or,
    Call.updateData.injEq, true_and] at h
  rcases h with hremove | hcompleted | hreschedule
  · have hwrites := removeNotification_writes z c task _ hremove
    cases hwrites
  · exact .inl hcompleted
  · rcases mem_reschedule hreschedule with ⟨t, -, heq⟩ | hwrites
    · rw [Call.updateData.injEq] at heq
      exact .inr ⟨_, _, _, heq.2⟩
    · cases hwrites

theorem advances_completion {c : Clock} {task : AppTask} (ht : task.WellFormed)
    (hpaid : giveMoney z c task = true) (hrepeats : task.repeats ≠ .never) :
    ∃ p date time, Call.updateData task.id (.reschedule p (task.streak + 1) date time)
      ∈ completion z c task := by
  obtain ⟨t, hnext⟩ := nextTimeOf_of_repeats (z := z) (c := c) ht hrepeats
  have hmem : Call.updateData task.id (rescheduled z c task (task.streak + 1) t)
      ∈ completion z c task := by
    rw [completion_of_ok hnext, if_pos hpaid]
    simp [reschedule]
  exact ⟨_, _, _, hmem⟩

/-- What one completion of the stored task is to do: pay its coins once, and
advance its streak by one. -/
def OncePerOccurrence (w : World κ) (id : String) (d : TaskDoc) (c : Config (World κ) Handler) :
    Prop :=
  c.shared.money = w.money + moneyAdded (.fromDS id d)
    ∧ (c.shared.tasks id).map (·.streak) = some (d.streak + 1)

/-- The same task is tapped twice, before either completion has written. -/
def twice (id : String) (d : TaskDoc) (z₁ z₂ : Zone) (c₁ c₂ : Clock) : List Tap :=
  [⟨z₁, c₁, .fromDS id d⟩, ⟨z₂, c₂, .fromDS id d⟩]

theorem ifEventCompleted_of_open (z : Zone) (c : Clock) {task : AppTask}
    (h : task.isCompleted = false) : ifEventCompleted z c task = completion z c task := by
  rw [ifEventCompleted, h]
  rfl

section

variable {id : String} {d : TaskDoc} {z₁ z₂ : Zone} {c₁ c₂ : Clock}

omit [DecidableEq κ] in
theorem tapped_twice (hw : w.WellFormed) (hd : w.tasks id = some d) :
    Tapped w (twice id d z₁ z₂ c₁ c₂) := by
  intro t ht
  have htask : t.task = .fromDS id d := by
    simp only [twice, List.mem_cons, List.not_mem_nil, or_false] at ht
    rcases ht with rfl | rfl <;> rfl
  rw [htask, AppTask.fromDS_id, hd]
  exact ⟨(hw id d hd).read id, rfl⟩

variable (hwf : d.WellFormed) (hopen : d.isCompleted = false) (hrepeats : d.repeats ≠ .never)
  (h₁ : giveMoney z₁ c₁ (.fromDS id d) = true) (h₂ : giveMoney z₂ c₂ (.fromDS id d) = true)

include hwf hopen hrepeats h₁ h₂

omit [DecidableEq κ] in
theorem streaks_start (w : World κ) :
    Streaks id (d.streak + 1) (start w (twice id d z₁ z₂ c₁ c₂)) := by
  have hcalls : ∀ h ∈ (start w (twice id d z₁ z₂ c₁ c₂)).clients, ∃ z c,
      h.calls = completion z c (.fromDS id d) ∧ giveMoney z c (.fromDS id d) = true := by
    intro h hh
    simp only [start, twice, List.map_cons, List.map_nil, List.mem_cons, List.not_mem_nil,
      or_false] at hh
    rcases hh with rfl | rfl
    · exact ⟨z₁, c₁, ifEventCompleted_of_open z₁ c₁ hopen, h₁⟩
    · exact ⟨z₂, c₂, ifEventCompleted_of_open z₂ c₂ hopen, h₂⟩
  refine ⟨fun h hh update hupdate => ?_, .inl fun h hh => ?_, by simp [start, twice]⟩
  · obtain ⟨z, c, hc, hpaid⟩ := hcalls h hh
    rw [hc] at hupdate
    exact mem_completion (hwf.read id) hpaid hupdate
  · obtain ⟨z, c, hc, hpaid⟩ := hcalls h hh
    unfold Advances
    rw [hc]
    exact advances_completion (hwf.read id) hpaid hrepeats

omit hrepeats [DecidableEq κ] in
theorem total_start (w : World κ) : total (start w (twice id d z₁ z₂ c₁ c₂))
    = w.money + 2 * moneyAdded (.fromDS id d) := by
  have hcoins : ∀ z c, giveMoney z c (.fromDS id d) = true →
      due ⟨z, c, ifEventCompleted z c (.fromDS id d), none, 0⟩ = moneyAdded (.fromDS id d) := by
    intro z c hpaid
    have htask : (AppTask.fromDS id d).WellFormed := hwf.read id
    rw [due, ifEventCompleted_of_open z c hopen]
    exact (credit_completion c htask).trans (if_pos hpaid)
  simp only [total, start, twice, List.map_cons, List.map_nil, List.sum_cons, List.sum_nil]
  rw [hcoins z₁ c₁ h₁, hcoins z₂ c₂ h₂]
  omega

end

omit [DecidableEq κ] in
/-- When the completions have ended, the streak they write is the stored one. -/
theorem Streaks.of_finished {id : String} {streak : ℤ} {c : Config (World κ) Handler}
    (h : Streaks id streak c) (hc : Finished c) :
    (c.shared.tasks id).map (·.streak) = some streak := by
  rcases h.stored with hall | ⟨d, hd, hs⟩
  · -- nobody has anything left to write
    obtain ⟨p, hp⟩ := List.exists_mem_of_ne_nil _ h.some_client
    obtain ⟨_, _, _, hmem⟩ := hall p hp
    rw [hc p hp] at hmem
    exact absurd hmem List.not_mem_nil
  · rw [hd, Option.map_some, hs]

/-- **Both completions are paid for**, whatever the order of their calls, and the
streak advances by one: no order does what one completion is to do. -/
theorem both_paid (hw : w.WellFormed) {id : String} {d : TaskDoc} (hd : w.tasks id = some d)
    (hopen : d.isCompleted = false) (hrepeats : d.repeats ≠ .never) {z₁ z₂ : Zone}
    {c₁ c₂ : Clock} (h₁ : giveMoney z₁ c₁ (.fromDS id d) = true)
    (h₂ : giveMoney z₂ c₂ (.fromDS id d) = true) :
    (∃ es c, run (step (act key)) (start w (twice id d z₁ z₂ c₁ c₂)) es = some c ∧ Finished c)
      ∧ ∀ es c, run (step (act key)) (start w (twice id d z₁ z₂ c₁ c₂)) es = some c → Finished c →
        c.shared.money = w.money + 2 * moneyAdded (.fromDS id d)
          ∧ (c.shared.tasks id).map (·.streak) = some (d.streak + 1)
          ∧ ¬ OncePerOccurrence w id d c := by
  refine ⟨exists_finished _, fun es c hrun hfinished => ?_⟩
  have hwf : d.WellFormed := hw id d hd
  have htapped : Tapped w (twice id d z₁ z₂ c₁ c₂) := tapped_twice hw hd
  have hready := ready_start hw htapped
  have hid : (w.tasks id).isSome = true := by rw [hd]; rfl
  have hinv : ∀ s e s', (Ready (fun id => (w.tasks id).isSome = true) s
      ∧ Streaks id (d.streak + 1) s) → step (act key) s e = some s' →
      Ready (fun id => (w.tasks id).isSome = true) s' ∧ Streaks id (d.streak + 1) s' :=
    fun s e s' hs hstep => ⟨(hs.1.step hstep).1, hs.2.step hs.1 hid hstep⟩
  have hend := run_invariant _ hinv ⟨hready, streaks_start hwf hopen hrepeats h₁ h₂ w⟩ hrun
  have hmoney : c.shared.money = w.money + 2 * moneyAdded (.fromDS id d) := by
    rw [← total_of_finished hfinished, (total_run hready hrun).2, total_start hwf hopen h₁ h₂]
  refine ⟨hmoney, hend.2.of_finished hfinished, fun honce => ?_⟩
  have hpos : 0 < moneyAdded (.fromDS id d) := moneyAdded_pos (hwf.read id)
  have hone := honce.1
  omega

/-- A task of every day, never completed before; and an account with it. -/
def habit : TaskDoc := { errand "a" with title := "habit", repeats := .daily }

def habits : World String :=
  { World.empty with tasks := fun id => if id = "a" then some habit else none }

/-- Noon of 1 June 2022, in milliseconds. -/
def noon : ℤ := 1654084800000

/-- One completion is brought to its end after the other. -/
def oneByOne : List (ℕ × Unit) := List.replicate 6 (0, ()) ++ List.replicate 6 (1, ())

/-- Two coins are paid, one for each completion of the one day. -/
theorem not_once :
    ∃ c, run (step (act AppTask.id)) (start habits [phone noon "a" habit, phone noon "a" habit])
        oneByOne = some c
      ∧ Finished c ∧ c.shared.money = 2 ∧ ¬ OncePerOccurrence habits "a" habit c := by
  have heval : (run (step (act AppTask.id))
      (start habits [phone noon "a" habit, phone noon "a" habit]) oneByOne).map
      (fun c => (c.shared.money, c.clients.map (·.calls))) = some (2, List.replicate 2 []) := rfl
  obtain ⟨c, hrun, hend⟩ := Option.map_eq_some_iff.mp heval
  rw [Prod.mk.injEq] at hend
  refine ⟨c, hrun, finished_of_calls hend.2, hend.1, fun honce => ?_⟩
  have hone : c.shared.money = 1 := honce.1
  omega

theorem habits_wellFormed : habits.WellFormed := by
  intro id d hd
  simp only [habits, Option.ite_none_right_eq_some, Option.some.injEq] at hd
  rw [← hd.2]
  exact ⟨by simp [habit, errand], by simp [habit, errand], le_refl 0⟩

/-- Two phones, one of them twenty minutes ahead. -/
theorem both_paid_habit :
    (∃ es c, run (step (act AppTask.id))
        (start habits [phone noon "a" habit, phone (noon + 1200000) "a" habit]) es = some c
        ∧ Finished c)
      ∧ ∀ es c, run (step (act AppTask.id))
          (start habits [phone noon "a" habit, phone (noon + 1200000) "a" habit]) es = some c →
        Finished c →
          c.shared.money = habits.money + 2 * moneyAdded (.fromDS "a" habit)
            ∧ (c.shared.tasks "a").map (·.streak) = some (habit.streak + 1)
            ∧ ¬ OncePerOccurrence habits "a" habit c :=
  both_paid habits_wellFormed rfl rfl (by decide) rfl rfl

end AquaFocus.Overlap
