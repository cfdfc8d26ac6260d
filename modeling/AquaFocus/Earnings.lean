/-
What a task has earned, over everything that can happen to it.

A completion credits the balance and changes the document; edits change the
repeat rule in between, a completed task stays on the list, and the variables of
the clock may be out of date. None of this is stored as a total. But it can be
read off the document as it is: a streak of `n` stands for the squares up to
`n`, and a completion mark for the five coins of a one-off task (`worth`). The
books of this file add up what the balance gains with each operation, task by
task, and `earned_eq_worth` says that both are the same after any run.
-/
import AquaFocus.Balance
import AquaFocus.Reminders
import Mathlib.Algebra.BigOperators.Ring.Finset
import Mathlib.Algebra.BigOperators.Intervals

set_option autoImplicit false

open Dart Calls Runs

namespace AquaFocus.Earnings

/-! ## The books -/

/-- The account, and what it has gained with each task since the task was made. -/
structure Books (κ : Type) where
  world : World κ
  earned : String → ℤ

/-- The operations, each with the clock variables it found. -/
inductive Event
  | create (c : Clock) (docId uid uuid : String) (data : FormData)
  | operate (c : Clock) (docId : String) (op : TaskOp)
  | clearRecord (c : Clock)

variable {κ : Type} [DecidableEq κ] (key : AppTask → κ) (z : Zone)

def step (b : Books κ) : Event → Option (Books κ)
  | .create c docId uid uuid data =>
      if (b.world.tasks docId).isSome then none
      else some {
        world := (perform (exec key z c)
          (createTask z c docId (newTask z uid uuid data)) b.world.fresh).1
        earned := Function.update b.earned docId 0 }
  | .operate c docId op =>
      (b.world.tasks docId).bind fun d =>
        if op.offered d then
          let world := performOp key z docId (c, op) b.world
          some {
            world := world
            earned := Function.update b.earned docId
              (b.earned docId + (world.money - b.world.money)) }
        else none
  | .clearRecord c =>
      some { b with world := (perform (exec key z c) Reminders.clearRecord b.world).1 }

/-! ## The worth of a task -/

/-- The coins of the first `n` completions of a streak. -/
def squares (n : ℕ) : ℤ := ∑ k ∈ Finset.range n, ((k : ℤ) + 1) * (k + 1)

/-- What a document says its task has earned. -/
def worth (d : TaskDoc) : ℤ := squares d.streak.toNat + if d.isCompleted then 5 else 0

theorem squares_succ (n : ℕ) : squares (n + 1) = squares n + ((n : ℤ) + 1) * (n + 1) :=
  Finset.sum_range_succ _ n

/-- A streak is worth one square more with each completion that is paid. -/
theorem squares_toNat_succ {streak : ℤ} (h : 0 ≤ streak) :
    squares (streak + 1).toNat = squares streak.toNat + (streak + 1) * (streak + 1) := by
  have hcast : (streak.toNat : ℤ) = streak := Int.toNat_of_nonneg h
  rw [Int.toNat_add h Int.one_nonneg, Int.toNat_one, squares_succ, hcast]

variable {z} {c : Clock} {id : String} {d : TaskDoc}

/-- **A completion is worth what it credits.** -/
theorem worth_docAfter (hd : d.WellFormed) (hopen : d.isCompleted = false)
    {next : Option DateTime} (hnext : nextTimeOf z c (.fromDS id d) = .ok next) :
    worth (docAfter z c (.fromDS id d) d next) = worth d + coins z c (.fromDS id d) := by
  by_cases hr : (AppTask.fromDS id d).repeats = .never
  · -- five coins, and the mark
    rw [nextTimeOf_of_never hr, Except.ok.injEq] at hnext
    have hcoins : coins z c (.fromDS id d) = 5 := by
      rw [coins, if_pos (giveMoney_of_never hr), moneyAdded, if_pos hr]
    rw [hcoins, ← hnext]
    simp [worth, docAfter, nextDoc, TaskUpdate.apply, hopen]
  · obtain ⟨t, ht⟩ := nextTimeOf_of_repeats (z := z) (c := c) (hd.read id) hr
    rw [show AppTask.read id d = .fromDS id d from rfl, hnext, Except.ok.injEq] at ht
    rw [ht]
    have hstreak : (docAfter z c (.fromDS id d) d (some t)).streak
        = streakAfter z c (.fromDS id d) := rfl
    have hdone : (docAfter z c (.fromDS id d) d (some t)).isCompleted = false := rfl
    rw [worth, worth, hstreak, hdone, hopen]
    by_cases hpaid : giveMoney z c (.fromDS id d) = true
    · rw [streakAfter, coins, if_pos hpaid, if_pos hpaid, moneyAdded, if_neg hr,
        AppTask.fromDS_streak, squares_toNat_succ hd.streak_nonneg]
      ring
    · rw [streakAfter, coins, if_neg hpaid, if_neg hpaid, AppTask.fromDS_streak]
      ring

/-! ## One step -/

/-- The books agree with the documents. -/
structure Agree (b : Books κ) : Prop where
  wellFormed : b.world.WellFormed
  earned : ∀ id d, b.world.tasks id = some d → b.earned id = worth d

variable {key} {b b' : Books κ}

omit [DecidableEq κ] in
/-- What touches one task's document and one entry. -/
theorem Agree.update (h : Agree b) {o : Option TaskDoc} {n : ℤ}
    (htasks : b'.world.tasks = Function.update b.world.tasks id o)
    (hearned : b'.earned = Function.update b.earned id n)
    (ho : ∀ d, o = some d → d.WellFormed ∧ n = worth d) : Agree b' where
  wellFormed := h.wellFormed.update htasks fun d hd => (ho d hd).1
  earned := by
    intro x d hd
    rw [htasks] at hd
    rw [hearned]
    by_cases hx : x = id
    · rw [hx, Function.update_self] at hd ⊢
      exact (ho d hd).2
    · rw [Function.update_of_ne hx] at hd ⊢
      exact h.earned x d hd

theorem Agree.step {e : Event} (h : Agree b) (hstep : step key z b e = some b') : Agree b' := by
  cases e with
  | create c docId uid uuid data =>
      obtain ⟨-, hb'⟩ := Option.ite_none_left_eq_some.mp hstep
      have hwf : (newTask z uid uuid data).WellFormed := newTask_wellFormed z uid uuid data
      rw [createTask_spec key docId hwf] at hb'
      have htasks : b'.world.tasks
          = Function.update b.world.tasks docId (some (newTask z uid uuid data)) := by
        rw [← Option.some.inj hb']
        rfl
      have hearned : b'.earned = Function.update b.earned docId 0 := by
        rw [← Option.some.inj hb']
      refine h.update htasks hearned fun d hd => ?_
      rw [← Option.some.inj hd]
      exact ⟨hwf, rfl⟩
  | operate c docId op =>
      simp only [Earnings.step, Option.bind_eq_some_iff] at hstep
      obtain ⟨d, hd, hstep⟩ := hstep
      obtain ⟨hoffered, hb'⟩ := Option.ite_none_right_eq_some.mp hstep
      have hwf : d.WellFormed := h.wellFormed docId d hd
      obtain ⟨next, hnext, htasks, -⟩ := performOp_spec key z (c, op) hd hwf
      have hmoney := Balance.performOp_money key (z := z) (c := c) hd hwf op
      have hworld : b'.world = performOp key z docId (c, op) b.world := by
        rw [← Option.some.inj hb']
      have hearned : b'.earned = Function.update b.earned docId
          (b.earned docId + (b'.world.money - b.world.money)) := by
        rw [hworld, ← Option.some.inj hb']
      refine h.update (hworld ▸ htasks) hearned fun d' hd' => ⟨?_, ?_⟩
      · exact op.doc_wellFormed z c (hwf.read docId) hwf hd'
      · rw [hworld, hmoney, h.earned docId d hd, add_sub_cancel_left]
        cases op with
        | edit data =>
            -- an edit keeps the streak and the mark
            rw [← Option.some.inj hd']
            exact add_zero _
        | complete =>
            rw [← Option.some.inj hd']
            have hopen : d.isCompleted = false := by simpa [TaskOp.offered] using hoffered
            exact (worth_docAfter hwf hopen hnext).symm
        | delete => exact absurd hd' (by simp [TaskOp.doc])
        | deleteFromDetails =>
            rw [← Option.some.inj hd']
            exact add_zero _
  | clearRecord c =>
      rw [← Option.some.inj hstep]
      refine ⟨fun id d hd => ?_, fun id d hd => ?_⟩
      · exact absurd hd (by simp [Reminders.clearRecord, perform, exec])
      · exact absurd hd (by simp [Reminders.clearRecord, perform, exec])

/-! ## Runs -/

/-- **What a task has earned** can be read off its document after any run: the
squares up to its streak, and five coins if it is completed. -/
theorem earned_eq_worth (key : AppTask → κ) (z : Zone) {b b' : Books κ} (h : Agree b)
    {es : List Event} (hrun : run (step key z) b es = some b') {id : String} {d : TaskDoc}
    (hd : b'.world.tasks id = some d) : b'.earned id = worth d :=
  (run_invariant _ (fun _ _ _ hs hstep => hs.step hstep) h hrun).earned id d hd

/-- A daily task is completed twice, made a one-off task, and completed again. -/
def swimBooks : List Event :=
  [.create (noonOfJune 1) "doc" "uid" "uuid" (.untimed 1654041600000 .daily),
    .operate (noonOfJune 1) "doc" .complete,
    .operate (noonOfJune 2) "doc" .complete,
    .operate (noonOfJune 2) "doc" (.edit (.untimed 1654041600000 .never)),
    .operate (noonOfJune 2) "doc" .complete]

theorem earned_eq_worth_swim : ∃ b' d,
    run (step AppTask.id utc) ⟨.empty, fun _ => 0⟩ swimBooks = some b'
      ∧ b'.world.tasks "doc" = some d ∧ worth d = 10 ∧ b'.earned "doc" = worth d := by
  have hagree : Agree (⟨.empty, fun _ => 0⟩ : Books String) :=
    ⟨fun _ _ h => absurd h (by simp [World.empty]), fun _ _ h => absurd h (by simp [World.empty])⟩
  have hrun : (run (step AppTask.id utc) (⟨.empty, fun _ => 0⟩ : Books String) swimBooks).bind
      (fun b => (b.world.tasks "doc").map fun d => (d.streak, d.isCompleted)) = some (2, true) := by
    decide +kernel
  obtain ⟨b', hb', hmap⟩ := Option.bind_eq_some_iff.mp hrun
  obtain ⟨d, hd, hpair⟩ := Option.map_eq_some_iff.mp hmap
  obtain ⟨hstreak, hdone⟩ := Prod.mk.inj hpair
  refine ⟨b', d, hb', hd, ?_, earned_eq_worth AppTask.id utc hagree hb' hd⟩
  rw [worth, hstreak, hdone]
  rfl

end AquaFocus.Earnings
