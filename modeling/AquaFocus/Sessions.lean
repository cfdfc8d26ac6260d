/-
From the countdown to the record of a day.

The countdown pays `moneyEarned`, which it takes from the duration the timer was
last started with, and `saveFocusTime` works out `diffInt` from the two times it
is given. Each is put together from the strings of `timeString`, on its own side
of the store. They agree for every session (`Recorded`): the end is not read from
the clock, but set when the timer starts, also when it goes on after the cancel
dialog. So a session that lies within a clock hour of its day is what
`FocusCharts.lean` calls plain, and `sessions_recorded` follows the coins of a
whole run of the screen into the record.
-/
import AquaFocus.FocusCharts
import AquaFocus.Balance

set_option autoImplicit false

open Dart Runs

namespace AquaFocus.Sessions

open CountDown (Screen Action Payout)
open FocusCharts (Plain Balanced recorded)

/-! ## The two times of a session -/

/-- The end is as far from the start as the timer was to run. -/
def Spans (startTime endTime : Option DateTime) (duration : ℤ) : Prop :=
  ∃ start, startTime = some start ∧ endTime = some (start.add (seconds duration))

/-- A payout that is recorded for as long as it is paid. -/
def Payout.Recorded (p : Payout) : Prop :=
  ∃ duration, Spans p.startTime p.endTime duration ∧ p.moneyEarned = (timeString duration).total

/-- What is known of the countdown after any actions. -/
structure Inv (money : ℤ) (s : Screen) : Prop where
  spans : s.hvStarted = true → Spans s.startTime s.endTime s.initialDur
  recorded : ∀ p ∈ s.paid, Payout.Recorded p
  fishMoney : s.fishMoney = money + (s.paid.map (·.moneyEarned)).sum

variable {money : ℤ} {s s' : Screen} {a : Action}

theorem inv_initial (money : ℤ) : Inv money (CountDown.initial money) where
  spans h := absurd h (by simp [CountDown.initial])
  recorded p hp := absurd hp (by simp [CountDown.initial])
  fishMoney := (add_zero money).symm

theorem Inv.startTimer (h : Inv money s) (now : DateTime) : Inv money (s.startTimer now) where
  spans _ := ⟨now, rfl, rfl⟩
  recorded := h.recorded
  fishMoney := h.fishMoney

theorem Inv.step (h : Inv money s) (hstep : CountDown.step s a = some s') : Inv money s' := by
  rcases CountDown.step_cases hstep with ⟨-, d, rfl, -⟩ | ⟨-, -, now, -, rfl⟩
    | ⟨-, -, hstarted, now, -, rfl⟩ | ⟨-, -, now, -, rfl⟩ | ⟨-, -, -, -, rfl⟩
    | ⟨-, now, -, rfl⟩ | ⟨-, -, rfl⟩ | ⟨-, -, rfl⟩
  · exact ⟨h.spans, h.recorded, h.fishMoney⟩
  · exact h.startTimer now
  · -- the dialog pays for the duration the two times were made from
    refine ⟨h.spans, fun p hp => ?_, ?_⟩
    · rcases List.mem_append.mp hp with hold | hnew
      · exact h.recorded p hold
      · rw [List.mem_singleton.mp hnew]
        exact ⟨s.initialDur, h.spans hstarted, rfl⟩
    · simp only [Screen.completeTaskDialog, List.map_append, List.map_singleton, List.sum_append,
        List.sum_singleton, h.fishMoney]
      omega
  · exact ⟨h.spans, h.recorded, h.fishMoney⟩
  · exact ⟨h.spans, h.recorded, h.fishMoney⟩
  · -- going on takes both times anew
    have hgoes := h.startTimer now
    exact ⟨hgoes.spans, hgoes.recorded, hgoes.fishMoney⟩
  · exact ⟨fun hs => absurd hs (by simp [Screen.stopTimer]), h.recorded, h.fishMoney⟩
  · exact ⟨fun hs => absurd hs (by simp [Screen.stopTimer]), h.recorded, h.fishMoney⟩

/-! ## The calls -/

/-- The call of a payout keeps its amount and its times. -/
theorem of_focusCall {p : Payout} {readings : FocusTime.Readings} {call : FocusTime.Call}
    (h : Balance.focusCall p readings = some call) :
    call.duration = p.moneyEarned ∧ call.caller = p.date ∧ p.startTime = some call.startTime
      ∧ p.endTime = some call.endTime := by
  unfold Balance.focusCall at h
  split at h
  · next start stop hstart hstop =>
    split at h
    · obtain rfl := Option.some.inj h
      exact ⟨rfl, rfl, hstart, hstop⟩
    · exact absurd h (by simp)
  · exact absurd h (by simp)

/-- What is recorded is what is paid. -/
theorem diffInt_of_recorded {p : Payout} {readings : FocusTime.Readings} {call : FocusTime.Call}
    (hp : Payout.Recorded p) (h : Balance.focusCall p readings = some call) :
    call.duration = call.diffInt := by
  obtain ⟨duration, ⟨start, hstart, hstop⟩, hmoney⟩ := hp
  obtain ⟨hduration, -, hcallStart, hcallStop⟩ := of_focusCall h
  have hstart' : call.startTime = start := Option.some.inj (hcallStart.symm.trans hstart)
  have hstop' : call.endTime = start.add (seconds duration) :=
    Option.some.inj (hcallStop.symm.trans hstop)
  -- the difference is the duration again, which the two times were made from
  have hseconds : inSeconds (call.endTime.difference call.startTime) = duration := by
    rw [hstart', hstop']
    simp only [DateTime.difference, DateTime.add, add_sub_cancel_left, inSeconds, seconds]
    exact Int.mul_tdiv_cancel duration (by decide)
  rw [hduration, hmoney, FocusTime.Call.diffInt, FocusTime.differenceInt, hseconds]

/-- A session within a clock hour of the day it is saved on. -/
def Placed (z : Zone) (call : FocusTime.Call) : Prop :=
  call.OnOneDay z ∧ ∃ hour, FocusTime.AtHour z call.startTime hour
    ∧ FocusTime.AtHour z call.endTime hour

/-- The calls to the store that a list of payouts makes, one after the other. -/
def Calls (paid : List Payout) (calls : List FocusTime.Call) : Prop :=
  List.Forall₂ (fun p call => Balance.focusCall p call.readings = some call) paid calls

theorem plain_of_calls {z : Zone} {paid : List Payout} {calls : List FocusTime.Call}
    (hpaid : ∀ p ∈ paid, Payout.Recorded p) (h : Calls paid calls)
    (hplaced : ∀ call ∈ calls, Placed z call) : ∀ call ∈ calls, Plain z call := by
  -- payout by payout, as each call was made
  induction h with
  | nil => exact fun call hcall => absurd hcall List.not_mem_nil
  | cons hp _ ih =>
      intro call hcall
      rcases List.mem_cons.mp hcall with rfl | hcall
      · obtain ⟨hday, hhour⟩ := hplaced call List.mem_cons_self
        exact ⟨hday, hhour, diffInt_of_recorded (hpaid _ List.mem_cons_self) hp⟩
      · exact ih (fun q hq => hpaid q (List.mem_cons_of_mem _ hq))
          (fun c hc => hplaced c (List.mem_cons_of_mem _ hc)) call hcall

theorem sum_of_calls {paid : List Payout} {calls : List FocusTime.Call} (h : Calls paid calls) :
    (paid.map (·.moneyEarned)).sum = (calls.map (·.duration)).sum := by
  induction h with
  | nil => rfl
  | cons hp _ ih =>
      rw [List.map_cons, List.map_cons, List.sum_cons, List.sum_cons, ih, (of_focusCall hp).1]

/-- **Every coin of the countdown is in the record.** After any run of the screen,
with any sliders, pauses and restarts, whose sessions each lie within a clock hour
of the day they are saved on: the balance has grown by what the calls recorded,
and the record of each day holds that day's coins, in all and hour by hour. -/
theorem sessions_recorded (z : Zone) {money : ℤ} {as : List Action} {s : Screen}
    (hrun : run CountDown.step (CountDown.initial money) as = some s)
    {calls : List FocusTime.Call} (hcalls : Calls s.paid calls)
    (hplaced : ∀ call ∈ calls, Placed z call) {docs : FocusTime.Collection}
    (hdocs : run (FocusTime.step z) [] calls = some docs) :
    s.fishMoney = money + (calls.map (·.duration)).sum
      ∧ Balanced docs
      ∧ ∀ day, FocusTime.getTimeOfTheDay docs day = recorded z calls day := by
  have h : Inv money s :=
    run_invariant _ (fun _ _ _ hs hstep => hs.step hstep) (inv_initial money) hrun
  have hplain : ∀ call ∈ calls, Plain z call := plain_of_calls h.recorded hcalls hplaced
  refine ⟨?_, FocusCharts.balanced_run hplain hdocs⟩
  rw [h.fishMoney, sum_of_calls hcalls]

/-- Ten seconds at ten in the morning, started, stopped after four and gone on
with; the timer has then to run for six. -/
def shortSession : List Action :=
  [.minutes 0, .seconds 10, .start (FocusTime.june 36000)]
    ++ List.replicate 4 (.tick (FocusTime.june 36004))
    ++ [.cancel, .dismiss (FocusTime.june 36010)]
    ++ List.replicate 7 (.tick (FocusTime.june 36017))

def shortCall : FocusTime.Call where
  duration := 6
  caller := FocusTime.june 36017
  startTime := FocusTime.june 36010
  endTime := FocusTime.june 36016
  readings := .at (FocusTime.june 36017)
  duration_nonneg := by decide
  start_le_end := by decide
  inOrder := by decide

theorem sessions_recorded_short : ∃ s docs,
    run CountDown.step (CountDown.initial 20) shortSession = some s
      ∧ run (FocusTime.step utc) [] [shortCall] = some docs ∧ s.fishMoney = 26
      ∧ ∀ day, FocusTime.getTimeOfTheDay docs day = recorded utc [shortCall] day := by
  have hrun : ∃ s, run CountDown.step (CountDown.initial 20) shortSession = some s
      ∧ Calls s.paid [shortCall] := ⟨_, rfl, .cons rfl .nil⟩
  obtain ⟨s, hs, hcalls⟩ := hrun
  have hplaced : ∀ call ∈ [shortCall], Placed utc call := by
    intro call hcall
    rw [List.mem_singleton.mp hcall]
    exact ⟨⟨rfl, rfl⟩, 10, rfl, rfl⟩
  obtain ⟨hmoney, -, hdays⟩ := sessions_recorded utc hs hcalls hplaced rfl
  exact ⟨s, _, hs, rfl, hmoney, hdays⟩

end AquaFocus.Sessions
