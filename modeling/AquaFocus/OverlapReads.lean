/-
The home screen, by the order of the calls.

`Overlap.lean` compares two numbers where the last dialog is closed: the balance
it was given, and that of the moment. The first is the one its completion has
read, so they are equal exactly when the completion read it alone: when all
others had credited their coins by then (`meets_lastIsFresh_iff`). Between
reading and closing nothing changes what is compared (`kept_of_run`).
-/
import AquaFocus.Overlap

set_option autoImplicit false

open Dart Runs Interleave

namespace AquaFocus.Overlap

variable {κ : Type} [DecidableEq κ] {key : AppTask → κ} {z : Zone} {ids : Set String} {w : World κ}

/-! ## The course of a completion -/

/-- A call that neither reads the balance nor credits or shows anything. -/
def Quiet : Call → Prop
  | .getMoney | .addMoney _ | .updateHomeMoney _ => False
  | _ => True

/-- The balance is read, and the dialog has still to close. -/
def Between (calls : List Call) : Prop :=
  ∃ pre m, calls = pre ++ [.updateHomeMoney m, .addMoney m] ∧ 0 < m ∧ ∀ call ∈ pre, Quiet call

/-- The balance has still to be read. -/
def Before (calls : List Call) : Prop :=
  ∃ pre rest, calls = pre ++ .getMoney :: rest ∧ Between rest ∧ ∀ call ∈ pre, Quiet call

/-- The dialog is closed, or there is none. -/
def Past (calls : List Call) : Prop :=
  ∀ call ∈ calls, Quiet call ∨ ∃ m, call = .addMoney m ∧ 0 < m

/-- Where a completion is in its course. -/
def OnCourse (calls : List Call) : Prop := Before calls ∨ Between calls ∨ Past calls

section

variable {call : Call} {calls : List Call}

theorem Before.next (h : Before (call :: calls)) :
    Quiet call ∧ Before calls ∨ call = .getMoney ∧ Between calls := by
  obtain ⟨pre, rest, heq, hrest, hquiet⟩ := h
  cases pre with
  | nil =>
      obtain ⟨rfl, rfl⟩ := List.cons.inj heq
      exact .inr ⟨rfl, hrest⟩
  | cons c pre =>
      obtain ⟨rfl, rfl⟩ := List.cons.inj heq
      rw [List.forall_mem_cons] at hquiet
      exact .inl ⟨hquiet.1, pre, rest, rfl, hrest, hquiet.2⟩

theorem Between.next (h : Between (call :: calls)) :
    Quiet call ∧ Between calls ∨ ∃ m, call = .updateHomeMoney m ∧ Past calls := by
  obtain ⟨pre, m, heq, hm, hquiet⟩ := h
  cases pre with
  | nil =>
      obtain ⟨rfl, rfl⟩ := List.cons.inj heq
      refine .inr ⟨m, rfl, fun call hcall => .inr ⟨m, ?_, hm⟩⟩
      exact List.mem_singleton.mp hcall
  | cons c pre =>
      obtain ⟨rfl, rfl⟩ := List.cons.inj heq
      rw [List.forall_mem_cons] at hquiet
      exact .inl ⟨hquiet.1, pre, m, rfl, hm, hquiet.2⟩

theorem Past.next (h : Past (call :: calls)) : Past calls :=
  fun call' hcall => h call' (List.mem_cons_of_mem call hcall)

theorem OnCourse.next (h : OnCourse (call :: calls)) : OnCourse calls := by
  rcases h with h | h | h
  · exact h.next.elim (fun h => .inl h.2) fun h => .inr (.inl h.2)
  · rcases h.next with ⟨-, h⟩ | ⟨m, -, h⟩
    · exact .inr (.inl h)
    · exact .inr (.inr h)
  · exact .inr (.inr h.next)

theorem Before.not_between (h : Before calls) : ¬ Between calls := by
  obtain ⟨pre, rest, rfl, -, -⟩ := h
  rintro ⟨pre', m, heq, -, hquiet⟩
  have hmem : Call.getMoney ∈ pre' ++ [.updateHomeMoney m, .addMoney m] := heq ▸ by simp
  simp only [List.mem_append, List.mem_cons, reduceCtorEq, List.not_mem_nil, or_false] at hmem
  exact hquiet _ hmem

theorem Between.not_past (h : Between calls) : ¬ Past calls := by
  obtain ⟨pre, m, rfl, -, -⟩ := h
  intro hpast
  rcases hpast (.updateHomeMoney m) (by simp) with hquiet | ⟨n, heq, -⟩
  · exact hquiet
  · cases heq

/-- A completion that reads the balance has not read it before. -/
theorem OnCourse.of_getMoney (h : OnCourse (.getMoney :: calls)) : Between calls := by
  rcases h with h | h | h
  · exact h.next.elim (fun h => h.1.elim) fun h => h.2
  · rcases h.next with ⟨hquiet, -⟩ | ⟨m, heq, -⟩
    · exact hquiet.elim
    · cases heq
  · rcases h .getMoney List.mem_cons_self with hquiet | ⟨m, heq, -⟩
    · exact hquiet.elim
    · cases heq

/-- One that closes its dialog has read it. -/
theorem OnCourse.of_updateHomeMoney {m : ℤ} (h : OnCourse (.updateHomeMoney m :: calls)) :
    Between (.updateHomeMoney m :: calls) := by
  rcases h with h | h | h
  · rcases h.next with ⟨hquiet, -⟩ | ⟨heq, -⟩
    · exact hquiet.elim
    · cases heq
  · exact h
  · rcases h (.updateHomeMoney m) List.mem_cons_self with hquiet | ⟨n, heq, -⟩
    · exact hquiet.elim
    · cases heq

theorem credit_of_quiet (h : Quiet call) : credit call = 0 := by
  cases call <;> first | rfl | exact h.elim

/-- What a completion credits is positive. -/
theorem OnCourse.pos (h : OnCourse calls) {m : ℤ} (hm : Call.addMoney m ∈ calls) : 0 < m := by
  have hbetween : ∀ {calls}, Between calls → Call.addMoney m ∈ calls → 0 < m := by
    rintro _ ⟨pre, n, rfl, hn, hquiet⟩ hmem
    simp only [List.mem_append, List.mem_cons, reduceCtorEq, Call.addMoney.injEq, List.not_mem_nil,
      or_false, false_or] at hmem
    rcases hmem with hmem | rfl
    · exact (hquiet _ hmem).elim
    · exact hn
  rcases h with ⟨pre, rest, rfl, hrest, hquiet⟩ | h | h
  · simp only [List.mem_append, List.mem_cons, reduceCtorEq, false_or] at hm
    rcases hm with hm | hm
    · exact (hquiet _ hm).elim
    · exact hbetween hrest hm
  · exact hbetween h hm
  · rcases h _ hm with hquiet | ⟨n, heq, hn⟩
    · exact hquiet.elim
    · cases heq
      exact hn

end

/-- The calls after reading and before the dialog are quiet. -/
theorem quiet_reschedule {c : Clock} {task : AppTask} {s : ℤ} {next : Option DateTime} {call : Call}
    (h : call ∈ reschedule z c task s next) : Quiet call := by
  cases next with
  | none => exact absurd h List.not_mem_nil
  | some t =>
      unfold reschedule remind at h
      by_cases htime : task.hasTime = true
      · rw [if_pos htime] at h
        simp only [List.mem_cons, List.not_mem_nil, or_false] at h
        rcases h with rfl | rfl | rfl <;> trivial
      · rw [if_neg htime, List.mem_singleton] at h
        rw [h]
        trivial

theorem quiet_removeNotification {c : Clock} {task : AppTask} {call : Call}
    (h : call ∈ removeNotification z c task) : Quiet call := by
  rcases mem_removeNotification h with rfl | ⟨fault, rfl⟩ <;> trivial

/-- A completion has the balance still to read, or will not read it. -/
theorem course_of_tap (c : Clock) {task : AppTask} (ht : task.WellFormed) :
    Before (ifEventCompleted z c task) ∨ Past (ifEventCompleted z c task) := by
  unfold ifEventCompleted
  by_cases hdone : task.isCompleted = true
  · rw [if_pos hdone]
    exact .inr fun call hcall => absurd hcall List.not_mem_nil
  · obtain ⟨next, hnext⟩ := nextTimeOf_ok (z := z) (c := c) ht
    rw [if_neg hdone, completion_of_ok hnext]
    by_cases hpaid : giveMoney z c task = true
    · rw [if_pos hpaid]
      left
      refine ⟨removeNotification z c task ++ [.updateData task.id .completed], _, ?_,
        ⟨reschedule z c task (task.streak + 1) next ++ [.showDialog (some (moneyAdded task))],
          moneyAdded task, rfl, moneyAdded_pos ht, ?_⟩, ?_⟩
      · simp
      · intro call hcall
        rcases List.mem_append.mp hcall with hcall | hcall
        · exact quiet_reschedule hcall
        · rw [List.mem_singleton.mp hcall]
          trivial
      · intro call hcall
        rcases List.mem_append.mp hcall with hcall | hcall
        · exact quiet_removeNotification hcall
        · rw [List.mem_singleton.mp hcall]
          trivial
    · rw [if_neg hpaid]
      refine .inr fun call hcall => .inl ?_
      simp only [List.mem_append, List.mem_cons, List.not_mem_nil, or_false] at hcall
      rcases hcall with hcall | rfl | hcall | rfl
      · exact quiet_removeNotification hcall
      · trivial
      · exact quiet_reschedule hcall
      · trivial

/-! ## What a run keeps -/

/-- A state whose completions are on their course. -/
structure Going (ids : Set String) (c : Config (World κ) Handler) : Prop where
  ready : Ready ids c
  course : ∀ h ∈ c.clients, OnCourse h.calls

theorem Going.step {c c' : Config (World κ) Handler} {e : ℕ × Unit} (hc : Going ids c)
    (hstep : Interleave.step (act key) c e = some c') : Going ids c' := by
  obtain ⟨hready, h, call, calls, hh, hcalls, -, hclients⟩ := hc.ready.step hstep
  refine ⟨hready, ?_⟩
  rw [hclients]
  refine forall_mem_set e.1 hc.course ?_
  exact OnCourse.next (hcalls ▸ hc.course h (List.mem_of_getElem? hh))

theorem Going.run {c c' : Config (World κ) Handler} {es : List (ℕ × Unit)} (hc : Going ids c)
    (hrun : run (Interleave.step (act key)) c es = some c') : Going ids c' :=
  run_invariant _ (fun _ _ _ hs hstep => hs.step hstep) hc hrun

omit [DecidableEq κ] in
theorem going_start {taps : List Tap} (hw : w.WellFormed) (htaps : Tapped w taps) :
    Going (fun id => (w.tasks id).isSome = true) (start w taps) where
  ready := ready_start hw htaps
  course := by
    intro h hh
    obtain ⟨⟨z, c, task⟩, ht, rfl⟩ := List.mem_map.mp hh
    exact (course_of_tap c (htaps _ ht).1).elim .inl fun h => .inr (.inr h)

/-- The next call of the completion `i`, or of another one. -/
theorem Going.step_cases {c c' : Config (World κ) Handler} {e : ℕ × Unit} (hc : Going ids c)
    (hstep : Interleave.step (act key) c e = some c') {i : ℕ} {h : Handler}
    (hh : c.clients[i]? = some h) :
    (e.1 ≠ i ∧ c'.clients[i]? = some h)
      ∨ ∃ call calls, e.1 = i ∧ h.calls = call :: calls
        ∧ exec key h.zone h.clock call (seenBy c.shared h) = .ok c'.shared
        ∧ c'.clients[i]? = some { h with
            calls := calls, event := c'.shared.event, currMoney := c'.shared.currMoney } := by
  obtain ⟨-, p, call, calls, hp, hcalls, hexec, hclients⟩ := hc.ready.step hstep
  by_cases hei : e.1 = i
  · rw [hei, hh, Option.some.injEq] at hp
    subst hp
    refine .inr ⟨call, calls, hei, hcalls, hexec, ?_⟩
    rw [hclients, hei]
    exact List.getElem?_set_self (List.getElem?_eq_some_iff.mp hh).1
  · refine .inl ⟨hei, ?_⟩
    rw [hclients, List.getElem?_set_ne hei, hh]

/-- A quiet call keeps the variable `currMoney`. -/
theorem currMoney_of_quiet {c : Clock} {call : Call} {w' : World κ} (hquiet : Quiet call)
    (h : exec key z c call w = .ok w') : w'.currMoney = w.currMoney := by
  cases call with
  | getMoney => exact hquiet.elim
  | addMoney amt => exact hquiet.elim
  | updateHomeMoney m => exact hquiet.elim
  | updateData id update =>
      simp only [exec] at h
      split at h <;> cases h
      rfl
  | addNotification =>
      obtain ⟨pending, rfl⟩ := pending_of_addNotification h
      rfl
  | throws fault => cases h
  | _ =>
      cases h
      rfl

theorem due_cons {h : Handler} {call : Call} {calls : List Call}
    (hcalls : h.calls = call :: calls) :
    due h = credit call + (calls.map credit).sum := by
  rw [due, hcalls, List.map_cons, List.sum_cons]

/-- What the calls of the completion `i` keep of it, a run keeps. -/
theorem client_of_run {P : Handler → Prop}
    (hP : ∀ {q call calls} {u u' : World κ}, q.calls = call :: calls →
      exec key q.zone q.clock call u = .ok u' → u.currMoney = q.currMoney → P q →
      P { q with calls := calls, event := u'.event, currMoney := u'.currMoney })
    {c c' : Config (World κ) Handler} {es : List (ℕ × Unit)} (hc : Going ids c) {i : ℕ}
    {h : Handler} (hh : c.clients[i]? = some h) (hPh : P h)
    (hrun : run (Interleave.step (act key)) c es = some c') :
    ∃ h', c'.clients[i]? = some h' ∧ P h' := by
  have hstep : ∀ s e s', (Going ids s ∧ ∃ q, s.clients[i]? = some q ∧ P q) →
      Interleave.step (act key) s e = some s' →
      Going ids s' ∧ ∃ q, s'.clients[i]? = some q ∧ P q := by
    rintro s e s' ⟨hs, q, hq, hPq⟩ hstep
    refine ⟨hs.step hstep, ?_⟩
    rcases hs.step_cases hstep hq with ⟨-, hsame⟩ | ⟨call, calls, -, hcalls, hexec, hnext⟩
    · exact ⟨q, hsame, hPq⟩
    · exact ⟨_, hnext, hP hcalls hexec rfl hPq⟩
  exact (run_invariant _ hstep ⟨hc, h, hh, hPh⟩ hrun).2

theorem past_of_run {c c' : Config (World κ) Handler} {es : List (ℕ × Unit)} (hc : Going ids c)
    {i : ℕ} {h : Handler} (hh : c.clients[i]? = some h) (hpast : Past h.calls)
    (hrun : run (Interleave.step (act key)) c es = some c') :
    ∃ h', c'.clients[i]? = some h' ∧ Past h'.calls := by
  refine client_of_run ?_ hc hh hpast hrun
  intro q call calls u u' hcalls _ _ hpast
  exact Past.next (hcalls ▸ hpast)

/-- Until its dialog is closed, a completion keeps the balance it has read, and its
coins. -/
theorem kept_of_run {c c' : Config (World κ) Handler} {es : List (ℕ × Unit)} (hc : Going ids c)
    {i : ℕ} {h h' : Handler} (hh : c.clients[i]? = some h) (hb : Between h.calls)
    (hrun : run (Interleave.step (act key)) c es = some c') (hh' : c'.clients[i]? = some h')
    (hb' : Between h'.calls) : h'.currMoney = h.currMoney ∧ due h' = due h := by
  obtain ⟨q, hq, hcase⟩ : ∃ q, c'.clients[i]? = some q
      ∧ (Between q.calls ∧ q.currMoney = h.currMoney ∧ due q = due h ∨ Past q.calls) := by
    refine client_of_run ?_ hc hh (.inl ⟨hb, rfl, rfl⟩) hrun
    rintro q call calls u u' hcalls hexec hsees (⟨hqb, hcurr, hdue⟩ | hpast)
    · rcases Between.next (hcalls ▸ hqb) with ⟨hquiet, hrest⟩ | ⟨m, -, hrest⟩
      · refine .inl ⟨hrest, ((currMoney_of_quiet hquiet hexec).trans hsees).trans hcurr, ?_⟩
        rw [due_cons hcalls, credit_of_quiet hquiet, zero_add] at hdue
        exact hdue
      · exact .inr hrest
    · exact .inr (Past.next (hcalls ▸ hpast))
  rw [hh', Option.some.injEq] at hq
  subst hq
  rcases hcase with ⟨-, hcurr, hdue⟩ | hpast
  · exact ⟨hcurr, hdue⟩
  · exact absurd hpast hb'.not_past

/-- After its dialog is closed, or without one, a completion reads nothing. -/
theorem not_getMoney_of_past {c c' : Config (World κ) Handler} {es : List (ℕ × Unit)}
    (hc : Going ids c) {i : ℕ} {h h' : Handler} (hh : c.clients[i]? = some h)
    (hpast : Past h.calls) (hrun : run (Interleave.step (act key)) c es = some c')
    (hh' : c'.clients[i]? = some h') {calls : List Call} : h'.calls ≠ .getMoney :: calls := by
  intro hcalls
  obtain ⟨q, hq, hqpast⟩ := past_of_run hc hh hpast hrun
  rw [hh', Option.some.injEq] at hq
  rw [← hq, hcalls] at hqpast
  rcases hqpast .getMoney List.mem_cons_self with hquiet | ⟨n, heq, -⟩
  · exact hquiet
  · cases heq

/-- Between the start and the dialog a completion reads the balance. -/
theorem exists_read {c c' : Config (World κ) Handler} {es : List (ℕ × Unit)} (hc : Going ids c)
    {i : ℕ} {h h' : Handler} (hh : c.clients[i]? = some h) (hb : Before h.calls)
    (hrun : run (Interleave.step (act key)) c es = some c') (hh' : c'.clients[i]? = some h')
    (hb' : Between h'.calls) :
    ∃ pre c₁ h₁ calls, pre ++ [(i, ())] <+: es ∧ run (Interleave.step (act key)) c pre = some c₁
      ∧ c₁.clients[i]? = some h₁ ∧ h₁.calls = .getMoney :: calls := by
  induction es generalizing c h with
  | nil =>
      rw [run_nil, Option.some.injEq] at hrun
      rw [hrun, hh', Option.some.injEq] at hh
      exact absurd (hh ▸ hb') hb.not_between
  | cons e es ih =>
      obtain ⟨s, hstep, hrest⟩ := Option.bind_eq_some_iff.mp hrun
      -- a read after the first step is a read of the whole
      have hlater : ∀ q, s.clients[i]? = some q → Before q.calls → ∃ pre c₁ h₁ calls,
          pre ++ [(i, ())] <+: e :: es ∧ run (Interleave.step (act key)) c pre = some c₁
            ∧ c₁.clients[i]? = some h₁ ∧ h₁.calls = .getMoney :: calls := by
        intro q hq hqb
        obtain ⟨pre, c₁, h₁, calls, hpre, hrun₁, hh₁, hcalls₁⟩ := ih (hc.step hstep) hq hqb hrest
        refine ⟨e :: pre, c₁, h₁, calls, (List.prefix_cons_inj e).mpr hpre, ?_, hh₁, hcalls₁⟩
        rw [run_cons, hstep]
        exact hrun₁
      rcases hc.step_cases hstep hh with ⟨-, hsame⟩ | ⟨call, calls, hei, hcalls, -, hnext⟩
      · exact hlater h hsame hb
      · rcases Before.next (hcalls ▸ hb) with ⟨-, hbefore⟩ | ⟨rfl, -⟩
        · exact hlater _ hnext hbefore
        · obtain rfl : e = (i, ()) := Prod.ext hei rfl
          exact ⟨[], c, h, calls, List.prefix_append [(i, ())] es, rfl, hh, hcalls⟩

/-! ## Reading alone -/

/-- A completion has coins still to credit. -/
def Credits (h : Handler) : Prop := ∃ m, Call.addMoney m ∈ h.calls

/-- No completion but `i` has coins still to credit. -/
def Alone (c : Config (World κ) Handler) (i : ℕ) : Prop :=
  ∀ j h, j ≠ i → c.clients[j]? = some h → ¬ Credits h

theorem due_nonneg {h : Handler} (hcourse : OnCourse h.calls) :
    ∀ x ∈ h.calls.map credit, 0 ≤ x := by
  intro x hx
  obtain ⟨call, hcall, rfl⟩ := List.mem_map.mp hx
  cases call with
  | addMoney m => exact (hcourse.pos hcall).le
  | _ => exact le_refl 0

theorem due_eq_zero_iff {h : Handler} (hcourse : OnCourse h.calls) : due h = 0 ↔ ¬ Credits h := by
  constructor
  · rintro hzero ⟨m, hm⟩
    have hcredit : m = 0 := List.all_zero_of_le_zero_le_of_sum_eq_zero (due_nonneg hcourse) hzero
      (List.mem_map.mpr ⟨.addMoney m, hm, rfl⟩)
    exact absurd (hcourse.pos hm) (by omega)
  · intro hnot
    refine sum_credit_eq_zero fun call hcall => ?_
    cases call with
    | addMoney m => exact absurd ⟨m, hcall⟩ hnot
    | _ => rfl

omit [DecidableEq κ] in
/-- The balance is what it will be without the coins of `i` when the others have
credited theirs. -/
theorem alone_iff {c : Config (World κ) Handler} (hcourse : ∀ h ∈ c.clients, OnCourse h.calls)
    {i : ℕ} {h : Handler} (hh : c.clients[i]? = some h) :
    c.shared.money = total c - due h ↔ Alone c i := by
  -- the sum of what the others have still to credit
  have hsum := sum_map_set due { h with calls := [] } c.clients i h hh
  have hnone : due { h with calls := [] } = 0 := rfl
  have hzero : (∀ q ∈ c.clients.set i { h with calls := [] }, due q = 0)
      ↔ ∀ j q, j ≠ i → c.clients[j]? = some q → due q = 0 := by
    rw [forall_mem_set_iff _ hh, and_iff_right hnone]
  have halone : (∀ j q, j ≠ i → c.clients[j]? = some q → due q = 0) ↔ Alone c i := by
    refine forall_congr' fun j => forall_congr' fun q => imp_congr_right fun _ => ?_
    exact imp_congr_right fun hq => due_eq_zero_iff (hcourse q (List.mem_of_getElem? hq))
  rw [← halone, ← hzero, total]
  rw [hnone] at hsum
  constructor
  · intro heq q hq
    have hnonneg : ∀ x ∈ (c.clients.set i { h with calls := [] }).map due, 0 ≤ x := by
      intro x hx
      obtain ⟨p, hp, rfl⟩ := List.mem_map.mp hx
      rcases List.mem_or_eq_of_mem_set hp with hp | rfl
      · exact List.sum_nonneg (due_nonneg (hcourse p hp))
      · exact hnone.ge
    exact List.all_zero_of_le_zero_le_of_sum_eq_zero hnonneg (by omega)
      (List.mem_map_of_mem hq)
  · intro hall
    have hsum' : ((c.clients.set i { h with calls := [] }).map due).sum = 0 := by
      refine List.sum_eq_zero fun x hx => ?_
      obtain ⟨p, hp, rfl⟩ := List.mem_map.mp hx
      exact hall p hp
    omega

/-- A dialog is closed with the balance of the moment when its completion had read
the balance alone. -/
theorem fresh_iff_alone {c₁ c : Config (World κ) Handler} {es : List (ℕ × Unit)}
    (hc : Going ids c₁) {i : ℕ} {h₁ h : Handler} {calls : List Call}
    (hh₁ : c₁.clients[i]? = some h₁) (hcalls : h₁.calls = .getMoney :: calls)
    (hrun : run (Interleave.step (act key)) c₁ ((i, ()) :: es) = some c)
    (hh : c.clients[i]? = some h) (hb : Between h.calls) :
    h.currMoney = total c - due h ↔ Alone c₁ i := by
  have htotal : total c = total c₁ := (total_run hc.ready hrun).2
  obtain ⟨s, hstep, hrest⟩ := Option.bind_eq_some_iff.mp hrun
  rcases hc.step_cases hstep hh₁ with ⟨hne, -⟩ | ⟨call, calls', -, hcalls', hexec, hnext⟩
  · exact absurd rfl hne
  · rw [hcalls, List.cons.injEq] at hcalls'
    obtain ⟨rfl, rfl⟩ := hcalls'
    have hbetween : Between calls :=
      OnCourse.of_getMoney (hcalls ▸ hc.course h₁ (List.mem_of_getElem? hh₁))
    obtain ⟨hcurr, hdue⟩ := kept_of_run (hc.step hstep) hnext hbetween hrest hh hb
    have hread : h.currMoney = c₁.shared.money := by
      rw [hcurr, ← Except.ok.inj hexec]
      rfl
    have hsame : due h = due h₁ := by
      rw [hdue, due_cons hcalls]
      exact (zero_add _).symm
    rw [hread, htotal, hsame]
    exact alone_iff hc.course hh₁

/-! ## The schedule -/

section Schedule

variable (key) (c₀ : Config (World κ) Handler) (es : List (ℕ × Unit)) (i : ℕ)

/-- The completion `i` closes its dialog when no other has one to close. -/
def ClosesLast : Prop :=
  ∃ pre c h m calls, pre ++ [(i, ())] <+: es
    ∧ run (Interleave.step (act key)) c₀ pre = some c ∧ c.clients[i]? = some h
    ∧ h.calls = .updateHomeMoney m :: calls
    ∧ ∀ j h', j ≠ i → c.clients[j]? = some h' → ¬ Pays h'

/-- When the completion `i` reads the balance, no other has coins to credit. -/
def ReadsAlone : Prop :=
  ∀ pre c h calls, pre ++ [(i, ())] <+: es →
    run (Interleave.step (act key)) c₀ pre = some c → c.clients[i]? = some h →
    h.calls = .getMoney :: calls → Alone c i

end Schedule

/-- Of two different times at which `i` moves, one comes after the step at the other. -/
theorem prefix_cases {pre pre' es : List (ℕ × Unit)} {i : ℕ} (h : pre ++ [(i, ())] <+: es)
    (h' : pre' ++ [(i, ())] <+: es) :
    pre = pre' ∨ (∃ t, pre = pre' ++ (i, ()) :: t) ∨ ∃ t, pre' = pre ++ (i, ()) :: t := by
  have hof : ∀ {p q : List (ℕ × Unit)}, p ++ [(i, ())] <+: q ++ [(i, ())] →
      p = q ∨ ∃ t, q = p ++ (i, ()) :: t := by
    intro p q hpq
    rcases List.prefix_concat_iff.mp hpq with heq | ⟨t, ht⟩
    · exact .inl (List.append_cancel_right heq)
    · exact .inr ⟨t, by rw [← ht, List.append_assoc]; rfl⟩
  rcases List.prefix_or_prefix_of_prefix h h' with hpre | hpre
  · exact (hof hpre).imp_right .inr
  · exact (hof hpre).elim (fun heq => .inl heq.symm) fun ht => .inr (.inl ht)

/-- What a closing dialog has is what was read alone, or it was not. -/
theorem fresh_iff_readsAlone {taps : List Tap} (hw : w.WellFormed) (htaps : Tapped w taps)
    {es pre : List (ℕ × Unit)} {i : ℕ} {c : Config (World κ) Handler} {h : Handler} {m : ℤ}
    {calls : List Call} (hpre : pre ++ [(i, ())] <+: es)
    (hrun : run (Interleave.step (act key)) (start w taps) pre = some c)
    (hh : c.clients[i]? = some h) (hcalls : h.calls = .updateHomeMoney m :: calls) {s}
    (hstep : Interleave.step (act key) c (i, ()) = some s) :
    h.currMoney = total c - due h ↔ ReadsAlone key (start w taps) es i := by
  have hstart := going_start hw htaps
  have hc : Going _ c := hstart.run hrun
  have hb : Between h.calls := by
    have hcourse := hc.course h (List.mem_of_getElem? hh)
    rw [hcalls] at hcourse ⊢
    exact hcourse.of_updateHomeMoney
  -- a read by then decides
  have hread : ∀ p c₁ h₁ calls₁ t, run (Interleave.step (act key)) (start w taps) p = some c₁ →
      c₁.clients[i]? = some h₁ → h₁.calls = .getMoney :: calls₁ → pre = p ++ (i, ()) :: t →
      (h.currMoney = total c - due h ↔ Alone c₁ i) := by
    intro p c₁ h₁ calls₁ t hrun₁ hh₁ hcalls₁ ht
    rw [ht, run_append, hrun₁] at hrun
    exact fresh_iff_alone (hstart.run hrun₁) hh₁ hcalls₁ hrun hh hb
  constructor
  · intro hfresh p c₁ h₁ calls₁ hp hrun₁ hh₁ hcalls₁
    rcases prefix_cases hpre hp with rfl | ⟨t, ht⟩ | ⟨t, ht⟩
    · rw [hrun, Option.some.injEq] at hrun₁
      rw [← hrun₁, hh, Option.some.injEq] at hh₁
      rw [← hh₁, hcalls] at hcalls₁
      cases hcalls₁
    · exact (hread p c₁ h₁ calls₁ t hrun₁ hh₁ hcalls₁ ht).mp hfresh
    · rw [ht, run_append, hrun, Option.bind_some, run_cons, hstep, Option.bind_some] at hrun₁
      rcases hc.step_cases hstep hh with ⟨hne, -⟩ | ⟨call, calls', -, hcalls', -, hnext⟩
      · exact absurd rfl hne
      · rw [hcalls, List.cons.injEq] at hcalls'
        obtain ⟨rfl, rfl⟩ := hcalls'
        rcases Between.next (hcalls ▸ hb) with ⟨hquiet, -⟩ | ⟨n, -, hpast⟩
        · exact hquiet.elim
        · exact absurd hcalls₁
            (not_getMoney_of_past (hc.step hstep) hnext hpast hrun₁ hh₁)
  · intro halone
    -- it has read the balance, for at the start it had not
    have hi : i < (start w taps).clients.length :=
      length_clients_of_run hrun ▸ (List.getElem?_eq_some_iff.mp hh).1
    have hh₀ := List.getElem?_eq_getElem hi
    obtain ⟨⟨z, k, task⟩, ht, htap⟩ := List.mem_map.mp (List.mem_of_getElem? hh₀)
    have hcourse := course_of_tap (z := z) k (htaps _ ht).1
    rw [← htap] at hh₀
    rcases hcourse with hbefore | hpast
    · obtain ⟨p, c₁, h₁, calls₁, hp, hrun₁, hh₁, hcalls₁⟩ :=
        exists_read hstart hh₀ hbefore hrun hh hb
      obtain ⟨t, ht⟩ := hp
      have hpes : p ++ [(i, ())] <+: es :=
        (List.IsPrefix.trans ⟨t, ht⟩ (List.prefix_append pre [(i, ())])).trans hpre
      refine (hread p c₁ h₁ calls₁ t hrun₁ hh₁ hcalls₁ ?_).mpr
        (halone p c₁ h₁ calls₁ hpes hrun₁ hh₁ hcalls₁)
      rw [← ht, List.append_assoc]
      rfl
    · obtain ⟨h', hh', hpast'⟩ := past_of_run hstart hh₀ hpast hrun
      rw [hh, Option.some.injEq] at hh'
      exact absurd (hh' ▸ hpast') hb.not_past

/-- **The condition on the schedule.** In a run the last dialog is closed with the
balance of the moment exactly when its completion has read the balance after all
others had credited their coins. -/
theorem meets_lastIsFresh_iff {taps : List Tap} (hw : w.WellFormed) (htaps : Tapped w taps)
    {es : List (ℕ × Unit)} {c : Config (World κ) Handler}
    (hrun : run (Interleave.step (act key)) (start w taps) es = some c) :
    Meets (Interleave.step (act key)) LastIsFresh (start w taps) es
      ↔ ∀ i, ClosesLast key (start w taps) es i → ReadsAlone key (start w taps) es i := by
  constructor
  · rintro hmeets i ⟨pre, c₁, h, m, calls, hpre, hrun₁, hh, hcalls, hothers⟩
    -- the run goes on with the closing of the dialog
    obtain ⟨t, ht⟩ := hpre
    rw [← ht, run_append, run_concat, hrun₁, Option.bind_some] at hrun
    obtain ⟨s, hstep, -⟩ := Option.bind_eq_some_iff.mp hrun
    have hfresh := hmeets pre (i, ()) ⟨t, ht⟩ c₁ s hrun₁ hstep h m calls hh hcalls hothers
    exact (fresh_iff_readsAlone hw htaps ⟨t, ht⟩ hrun₁ hh hcalls hstep).mp hfresh
  · intro hall pre e hpre c₁ s hrun₁ hstep h m calls hh hcalls hothers
    have halone := hall e.1 ⟨pre, c₁, h, m, calls, hpre, hrun₁, hh, hcalls, hothers⟩
    exact (fresh_iff_readsAlone hw htaps hpre hrun₁ hh hcalls hstep).mpr halone

end AquaFocus.Overlap
