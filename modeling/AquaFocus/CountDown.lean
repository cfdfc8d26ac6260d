/-
`lib/screens/FocusTimer/CountDown/countdown_screen.dart`: the countdown.

The state is that of `_CountDownScreenState`, with the flag it keeps in its
widget, the dialog that is open, and the calls to the store it has made. Each
tap, tick and slider move is a step; a button that the screen does not show is a
step that is not enabled. `always_safe` is what holds in every reachable state,
and `interrupted_iff` is when an interruption leaves the reward alone.
-/
import AquaFocus.CountDownHelper
import AquaFocus.Lib.Runs

set_option autoImplicit false

open Dart Runs

namespace AquaFocus.CountDown

/-! ## The screen -/

/-- A `Timer?`. -/
inductive Timer
  | unset | active | cancelled
deriving DecidableEq

inductive Dialog
  | cancelTask | completeTask
deriving DecidableEq

/-- The two calls `_completeTaskDialog` makes: `saveFocusTime`, and `addMoney` of
the same amount. The date is formatted from a reading of the clock. -/
structure Payout where
  moneyEarned : ℤ
  date : DateTime
  startTime : Option DateTime
  endTime : Option DateTime
deriving DecidableEq

/-- Durations are whole seconds. -/
structure Screen where
  duration : ℤ
  initialDur : ℤ
  startTime : Option DateTime
  endTime : Option DateTime
  timer : Timer
  fishMoney : ℤ
  hvStarted : Bool
  dialog : Option Dialog
  paid : List Payout
  /-- what the home screen was last told to show -/
  homeMoney : ℤ
deriving DecidableEq

/-- The screen once `getMoney` has answered. -/
def initial (money : ℤ) : Screen where
  duration := 1500
  initialDur := 1500
  startTime := none
  endTime := none
  timer := .unset
  fishMoney := money
  hvStarted := false
  dialog := none
  paid := []
  homeMoney := money

/-- `Duration.inMinutes` and `Duration.inHours`, of whole seconds. -/
def inMinutes (duration : ℤ) : ℤ := duration.tdiv 60
def inHours (duration : ℤ) : ℤ := duration.tdiv 3600

/-- The values of the three sliders. -/
def hourValue (duration : ℤ) : ℤ := inHours duration
def minuteValue (duration : ℤ) : ℤ := inMinutes duration - inHours duration * 60
def secondValue (duration : ℤ) : ℤ := duration - inMinutes duration * 60

/-- `Duration(hours: h, minutes: m, seconds: s)`. -/
def ofFields (h m s : ℤ) : ℤ := h * 3600 + m * 60 + s

namespace Screen

/-- `startTimer`, for the first start and for going on after the dialog. -/
def startTimer (now : DateTime) (s : Screen) : Screen :=
  { s with
    hvStarted := true
    initialDur := s.duration
    timer := .active
    startTime := some now
    endTime := some (now.add (seconds s.duration)) }

/-- `stopTimer`. -/
def stopTimer (s : Screen) : Screen :=
  { s with
    hvStarted := false
    duration := s.initialDur
    timer := .cancelled }

/-- `_completeTaskDialog`, which pays as it is built. -/
def completeTaskDialog (now : DateTime) (s : Screen) : Screen :=
  let moneyEarned := (timeString s.initialDur).total
  { s with
    dialog := some .completeTask
    paid := s.paid ++ [⟨moneyEarned, now, s.startTime, s.endTime⟩]
    fishMoney := s.fishMoney + moneyEarned }

/-- `setCountDown`. -/
def setCountDown (now : DateTime) (s : Screen) : Screen :=
  if s.duration = 0 ∧ s.hvStarted = true then
    { s.completeTaskDialog now with timer := .cancelled }
  else { s with duration := s.duration - 1 }

end Screen

/-- What can happen. A slider hands over a number of its range, cut to an
integer; `dismiss` is the button `Cancel` of the cancel dialog. -/
inductive Action
  | hours (newHour : ℤ)
  | minutes (newMinutes : ℤ)
  | seconds (newSeconds : ℤ)
  | start (now : DateTime)
  | tick (now : DateTime)
  | cancel
  | dismiss (now : DateTime)
  | yes
  | back
deriving DecidableEq

/-- Sliders and Start are there before a session, and behind no dialog. -/
def Idle (s : Screen) : Prop := s.hvStarted = false ∧ s.dialog = none

instance (s : Screen) : Decidable (Idle s) := by
  unfold Idle
  infer_instance

def step (s : Screen) : Action → Option Screen
  | .hours newHour =>
      if Idle s ∧ 0 ≤ newHour ∧ newHour ≤ 5 then
        some { s with
          duration := ofFields newHour (minuteValue s.duration) (secondValue s.duration) }
      else none
  | .minutes newMinutes =>
      if Idle s ∧ 0 ≤ newMinutes ∧ newMinutes ≤ 59 then
        some { s with
          duration := ofFields (hourValue s.duration) newMinutes (secondValue s.duration) }
      else none
  | .seconds newSeconds =>
      if Idle s ∧ 0 ≤ newSeconds ∧ newSeconds ≤ 59 then
        some { s with
          duration := ofFields (hourValue s.duration) (minuteValue s.duration) newSeconds }
      else none
  | .start now =>
      -- below ten seconds the button does nothing
      if Idle s ∧ 10 ≤ s.duration then some (s.startTimer now) else none
  | .tick now => if s.timer = .active then some (s.setCountDown now) else none
  | .cancel =>
      -- the button is not there any more at zero
      if s.hvStarted = true ∧ s.dialog = none ∧ s.duration ≠ 0 then
        some { s with dialog := some .cancelTask, timer := .cancelled }
      else none
  | .dismiss now =>
      if s.dialog = some .cancelTask then some { s.startTimer now with dialog := none } else none
  | .yes =>
      if s.dialog = some .cancelTask then some { s.stopTimer with dialog := none } else none
  | .back =>
      if s.dialog = some .completeTask then
        some { s.stopTimer with dialog := none, homeMoney := s.fishMoney }
      else none

/-! ## What a step does -/

/-- A cancelled dialog stands over a running session, and a completed one over a
session at zero; nothing ticks behind either. -/
structure Inv (s : Screen) : Prop where
  duration_nonneg : 0 ≤ s.duration
  duration_le : s.duration ≤ 21599
  initialDur_nonneg : 0 ≤ s.initialDur
  initialDur_le : s.initialDur ≤ 21599
  le_initialDur : s.hvStarted = true → s.duration ≤ s.initialDur
  active : s.timer = .active → s.hvStarted = true ∧ s.dialog = none
  cancelTask : s.dialog = some .cancelTask → s.hvStarted = true
  completeTask : s.dialog = some .completeTask → s.hvStarted = true ∧ s.duration = 0

theorem inv_initial (money : ℤ) : Inv (initial money) := by
  constructor <;> simp [initial]

/-- The sliders stay in their ranges. -/
theorem slider_bounds {d : ℤ} (h : 0 ≤ d) (hle : d ≤ 21599) :
    (0 ≤ hourValue d ∧ hourValue d ≤ 5) ∧ (0 ≤ minuteValue d ∧ minuteValue d ≤ 59)
      ∧ (0 ≤ secondValue d ∧ secondValue d ≤ 59) := by
  unfold hourValue minuteValue secondValue inHours inMinutes
  rw [Int.tdiv_eq_ediv_of_nonneg h, Int.tdiv_eq_ediv_of_nonneg h]
  omega

/-- **What a step does**: it moves a slider, starts or goes on, counts, pays,
opens the cancel dialog, or ends the session. -/
theorem step_cases {s s' : Screen} {a : Action} (h : step s a = some s') :
    (Idle s ∧ ∃ d, s' = { s with duration := d }
        ∧ ((∃ n, a = .hours n ∧ 0 ≤ n ∧ n ≤ 5
            ∧ d = ofFields n (minuteValue s.duration) (secondValue s.duration))
          ∨ (∃ n, a = .minutes n ∧ 0 ≤ n ∧ n ≤ 59
            ∧ d = ofFields (hourValue s.duration) n (secondValue s.duration))
          ∨ ∃ n, a = .seconds n ∧ 0 ≤ n ∧ n ≤ 59
            ∧ d = ofFields (hourValue s.duration) (minuteValue s.duration) n))
    ∨ (Idle s ∧ 10 ≤ s.duration ∧ ∃ now, a = .start now ∧ s' = s.startTimer now)
    ∨ (s.timer = .active ∧ s.duration = 0 ∧ s.hvStarted = true ∧ ∃ now, a = .tick now
        ∧ s' = { s.completeTaskDialog now with timer := .cancelled })
    ∨ (s.timer = .active ∧ ¬ (s.duration = 0 ∧ s.hvStarted = true) ∧ ∃ now, a = .tick now
        ∧ s' = { s with duration := s.duration - 1 })
    ∨ (s.hvStarted = true ∧ s.dialog = none ∧ s.duration ≠ 0 ∧ a = .cancel
        ∧ s' = { s with dialog := some .cancelTask, timer := .cancelled })
    ∨ (s.dialog = some .cancelTask ∧ ∃ now, a = .dismiss now
        ∧ s' = { s.startTimer now with dialog := none })
    ∨ (s.dialog = some .cancelTask ∧ a = .yes ∧ s' = { s.stopTimer with dialog := none })
    ∨ (s.dialog = some .completeTask ∧ a = .back
        ∧ s' = { s.stopTimer with dialog := none, homeMoney := s.fishMoney }) := by
  cases a with
  | hours n =>
      obtain ⟨⟨hidle, hn⟩, heq⟩ := Option.ite_none_right_eq_some.mp h
      cases heq
      exact .inl ⟨hidle, _, rfl, .inl ⟨n, rfl, hn.1, hn.2, rfl⟩⟩
  | minutes n =>
      obtain ⟨⟨hidle, hn⟩, heq⟩ := Option.ite_none_right_eq_some.mp h
      cases heq
      exact .inl ⟨hidle, _, rfl, .inr (.inl ⟨n, rfl, hn.1, hn.2, rfl⟩)⟩
  | seconds n =>
      obtain ⟨⟨hidle, hn⟩, heq⟩ := Option.ite_none_right_eq_some.mp h
      cases heq
      exact .inl ⟨hidle, _, rfl, .inr (.inr ⟨n, rfl, hn.1, hn.2, rfl⟩)⟩
  | start now =>
      obtain ⟨⟨hidle, hten⟩, heq⟩ := Option.ite_none_right_eq_some.mp h
      cases heq
      exact .inr (.inl ⟨hidle, hten, now, rfl, rfl⟩)
  | tick now =>
      obtain ⟨hactive, heq⟩ := Option.ite_none_right_eq_some.mp h
      rw [Option.some.injEq, Screen.setCountDown] at heq
      by_cases hzero : s.duration = 0 ∧ s.hvStarted = true
      · rw [if_pos hzero] at heq
        exact .inr (.inr (.inl ⟨hactive, hzero.1, hzero.2, now, rfl, heq.symm⟩))
      · rw [if_neg hzero] at heq
        exact .inr (.inr (.inr (.inl ⟨hactive, hzero, now, rfl, heq.symm⟩)))
  | cancel =>
      obtain ⟨⟨hstarted, hnone, hne⟩, heq⟩ := Option.ite_none_right_eq_some.mp h
      cases heq
      exact .inr (.inr (.inr (.inr (.inl ⟨hstarted, hnone, hne, rfl, rfl⟩))))
  | dismiss now =>
      obtain ⟨hdialog, heq⟩ := Option.ite_none_right_eq_some.mp h
      cases heq
      exact .inr (.inr (.inr (.inr (.inr (.inl ⟨hdialog, now, rfl, rfl⟩)))))
  | yes =>
      obtain ⟨hdialog, heq⟩ := Option.ite_none_right_eq_some.mp h
      cases heq
      exact .inr (.inr (.inr (.inr (.inr (.inr (.inl ⟨hdialog, rfl, rfl⟩))))))
  | back =>
      obtain ⟨hdialog, heq⟩ := Option.ite_none_right_eq_some.mp h
      cases heq
      exact .inr (.inr (.inr (.inr (.inr (.inr (.inr ⟨hdialog, rfl, rfl⟩))))))

theorem Inv.step {s s' : Screen} {a : Action} (h : Inv s) (hstep : step s a = some s') :
    Inv s' := by
  obtain ⟨hd, hdle, hi, hile, hdi, hactive, hcancel, hcomplete⟩ := h
  have hsliders := slider_bounds hd hdle
  rcases step_cases hstep with ⟨⟨hidle, hnone⟩, d, rfl, hslider⟩ | ⟨hidle, hten, now, -, rfl⟩
    | ⟨htimer, hzero, hstarted, now, -, rfl⟩ | ⟨htimer, hzero, now, -, rfl⟩
    | ⟨hstarted, hnone, hne, -, rfl⟩ | ⟨hdialog, now, -, rfl⟩ | ⟨hdialog, -, rfl⟩
    | ⟨hdialog, -, rfl⟩
  · -- one value is in its range by the slider, the others were
    have hbounds : 0 ≤ d ∧ d ≤ 21599 := by
      unfold ofFields at hslider
      rcases hslider with ⟨n, -, hn, hn', rfl⟩ | ⟨n, -, hn, hn', rfl⟩ | ⟨n, -, hn, hn', rfl⟩ <;>
        omega
    exact ⟨hbounds.1, hbounds.2, hi, hile, fun hs => by simp [hidle] at hs, hactive, hcancel,
      fun hs => by simp [hnone] at hs⟩
  · exact ⟨hd, hdle, hd, hdle, fun _ => le_refl _, fun _ => ⟨rfl, hidle.2⟩, fun _ => rfl,
      fun hs => by simp [Screen.startTimer, hidle.2] at hs⟩
  · exact ⟨hd, hdle, hi, hile, hdi, fun hs => by simp at hs, fun _ => hstarted,
      fun _ => ⟨hstarted, hzero⟩⟩
  · -- the timer runs, so the session is started, and counting stops at zero
    obtain ⟨hstarted, hnone⟩ := hactive htimer
    have hpos : 0 < s.duration := by
      have hne : s.duration ≠ 0 := fun h0 => hzero ⟨h0, hstarted⟩
      omega
    have hle := hdi hstarted
    refine ⟨?_, ?_, hi, hile, fun _ => ?_, hactive, hcancel, fun hs => ?_⟩
    · show 0 ≤ s.duration - 1
      omega
    · show s.duration - 1 ≤ 21599
      omega
    · show s.duration - 1 ≤ s.initialDur
      omega
    · simp [hnone] at hs
  · exact ⟨hd, hdle, hi, hile, hdi, fun hs => by simp at hs, fun _ => hstarted,
      fun hs => by simp at hs⟩
  · exact ⟨hd, hdle, hd, hdle, fun _ => le_refl _, fun _ => ⟨rfl, rfl⟩, fun _ => rfl,
      fun hs => by simp at hs⟩
  · exact ⟨hi, hile, hi, hile, fun hs => by simp [Screen.stopTimer] at hs,
      fun hs => by simp [Screen.stopTimer] at hs, fun hs => by simp at hs,
      fun hs => by simp at hs⟩
  · exact ⟨hi, hile, hi, hile, fun hs => by simp [Screen.stopTimer] at hs,
      fun hs => by simp [Screen.stopTimer] at hs, fun hs => by simp at hs,
      fun hs => by simp at hs⟩

/-! ## Safety -/

/-- Only a tick at zero pays, and it opens the dialog that says so. -/
theorem paid_cases {s s' : Screen} {a : Action} (h : step s a = some s') :
    s'.paid = s.paid ∨ s.duration = 0 ∧ s'.dialog = some .completeTask
      ∧ ∃ p, s'.paid = s.paid ++ [p] ∧ p.moneyEarned = (timeString s'.initialDur).total := by
  rcases step_cases h with ⟨-, d, rfl, -⟩ | ⟨-, -, now, -, rfl⟩
    | ⟨-, hzero, -, now, -, rfl⟩ | ⟨-, -, now, -, rfl⟩ | ⟨-, -, -, -, rfl⟩
    | ⟨-, now, -, rfl⟩ | ⟨-, -, rfl⟩ | ⟨-, -, rfl⟩
  · exact .inl rfl
  · exact .inl rfl
  · exact .inr ⟨hzero, rfl, _, rfl, rfl⟩
  · exact .inl rfl
  · exact .inl rfl
  · exact .inl rfl
  · exact .inl rfl
  · exact .inl rfl

/-- A step is taken while a session is started. -/
def Started (s : Screen) (_ : Action) : Prop := s.hvStarted = true

/-- From a Start on, with `paid` before it: nothing was paid yet, or one payout
was, of the duration the timer was last started with, and the dialog or the end
of the session came with it. -/
def PaidOnce (paid : List Payout) (s : Screen) : Prop :=
  (s.paid = paid ∧ s.dialog ≠ some .completeTask)
    ∨ ∃ p, s.paid = paid ++ [p] ∧ p.moneyEarned = (timeString s.initialDur).total
        ∧ (s.dialog = some .completeTask ∨ s.hvStarted = false)

theorem paidOnce_step {paid : List Payout} {s s' : Screen} {a : Action} (h : Inv s)
    (hpaid : PaidOnce paid s) (hstarted : Started s a) (hstep : step s a = some s') :
    PaidOnce paid s' := by
  rcases hpaid with ⟨hpaid, hdialog⟩ | ⟨p, hpaid, hmoney, hdialog⟩
  · rcases paid_cases hstep with hsame | ⟨-, hcomplete, p, hp, hmoney⟩
    · -- no step but the paying one opens the dialog
      refine .inl ⟨hsame.trans hpaid, ?_⟩
      rcases step_cases hstep with ⟨-, d, rfl, -⟩ | ⟨hidle, -, now, -, rfl⟩
        | ⟨-, -, -, now, -, rfl⟩ | ⟨-, -, now, -, rfl⟩ | ⟨-, -, -, -, rfl⟩ | ⟨-, now, -, rfl⟩
        | ⟨-, -, rfl⟩ | ⟨-, -, rfl⟩
      · exact hdialog
      · exact hdialog
      · exact absurd hsame (by simp [Screen.completeTaskDialog])
      · exact hdialog
      · simp
      · simp
      · simp
      · simp
    · exact .inr ⟨p, by rw [hp, hpaid], hmoney, .inl hcomplete⟩
  · -- behind the dialog only its own button is left
    have hopen : s.dialog = some .completeTask :=
      hdialog.resolve_right fun hs => by
        unfold Started at hstarted
        rw [hs] at hstarted
        exact absurd hstarted (by decide)
    rcases step_cases hstep with ⟨hidle, -⟩ | ⟨hidle, -⟩ | ⟨htimer, -⟩ | ⟨htimer, -⟩
      | ⟨-, hnone, -⟩ | ⟨hcancel, -⟩ | ⟨hcancel, -⟩ | ⟨-, -, rfl⟩
    · exact absurd hidle.2 (by simp [hopen])
    · exact absurd hidle.2 (by simp [hopen])
    · exact absurd (h.active htimer).2 (by simp [hopen])
    · exact absurd (h.active htimer).2 (by simp [hopen])
    · exact absurd hnone (by simp [hopen])
    · exact absurd hcancel (by simp [hopen])
    · exact absurd hcancel (by simp [hopen])
    · exact .inr ⟨p, hpaid, hmoney, .inr rfl⟩

/-- What holds in every state the screen reaches. -/
structure Safe (s : Screen) : Prop where
  duration_nonneg : 0 ≤ s.duration
  duration_le : s.duration ≤ 21599
  le_initialDur : s.hvStarted = true → s.duration ≤ s.initialDur
  hourValue : 0 ≤ hourValue s.duration ∧ hourValue s.duration ≤ 5
  minuteValue : 0 ≤ minuteValue s.duration ∧ minuteValue s.duration ≤ 59
  secondValue : 0 ≤ secondValue s.duration ∧ secondValue s.duration ≤ 59
  started_of_active : s.timer = .active → s.hvStarted = true
  /-- a step pays nothing, or makes one payout, at zero -/
  paid_at_zero : ∀ a s', step s a = some s' →
    s'.paid = s.paid ∨ s.duration = 0 ∧ ∃ p, s'.paid = s.paid ++ [p]
  /-- from a Start to the step that ends its session at most one payout is made -/
  paid_once : ∀ now s₁ as s₂, step s (.start now) = some s₁ → Meets step Started s₁ as →
    run step s₁ as = some s₂ → s₂.paid = s.paid ∨ ∃ p, s₂.paid = s.paid ++ [p]

theorem Inv.safe {s : Screen} (h : Inv s) : Safe s := by
  have hsliders := slider_bounds h.duration_nonneg h.duration_le
  refine ⟨h.duration_nonneg, h.duration_le, h.le_initialDur, hsliders.1, hsliders.2.1,
    hsliders.2.2, fun ht => (h.active ht).1, fun a s' hstep => ?_, ?_⟩
  · rcases paid_cases hstep with hsame | ⟨hzero, -, p, hp, -⟩
    · exact .inl hsame
    · exact .inr ⟨hzero, p, hp⟩
  · intro now s₁ as s₂ hstart hstarted hrun
    have hbegin : Inv s₁ ∧ PaidOnce s.paid s₁ := by
      refine ⟨h.step hstart, .inl ?_⟩
      obtain ⟨⟨hidle, -⟩, heq⟩ := Option.ite_none_right_eq_some.mp hstart
      cases heq
      exact ⟨rfl, by simp [Screen.startTimer, hidle.2]⟩
    have hkeep : ∀ x a x', Inv x ∧ PaidOnce s.paid x → Started x a →
        CountDown.step x a = some x' → Inv x' ∧ PaidOnce s.paid x' :=
      fun x a x' hx hx' hstep => ⟨hx.1.step hstep, paidOnce_step hx.1 hx.2 hx' hstep⟩
    have hend := always_of_meets hkeep hbegin hstarted as (List.prefix_refl as) s₂ hrun
    rcases hend.2 with ⟨hpaid, -⟩ | ⟨p, hpaid, -⟩
    · exact .inl hpaid
    · exact .inr ⟨p, hpaid⟩

theorem inv_run {money : ℤ} {as : List Action} {s : Screen}
    (h : run step (initial money) as = some s) : Inv s := by
  have hkeep : ∀ s a s', Inv s → step s a = some s' → Inv s' := fun _ _ _ h hstep => h.step hstep
  exact run_invariant _ hkeep (inv_initial money) h

/-- **The countdown is safe** in every state of every run. -/
theorem always_safe (money : ℤ) (as : List Action) : Always step Safe (initial money) as :=
  fun _ _ _ hs => (inv_run hs).safe

/-! ## Interruptions -/

/-- What happens between a Start and the completion: the timer ticks, and the
cancel dialog is opened and dismissed. -/
def Interrupts : Action → Prop
  | .tick _ | .cancel | .dismiss _ => True
  | _ => False

/-- A session of nothing but ticks, at the readings `ts` of the clock. -/
def uninterrupted (now : DateTime) (ts : List DateTime) : List Action :=
  .start now :: ts.map .tick ++ [.back]

/-- The dialog is dismissed before anything was counted. -/
def Undisturbed (s : Screen) (a : Action) : Prop :=
  ∀ now, a = .dismiss now → s.duration = s.initialDur

/-- What a session from `s` comes to in `t`: the amounts credited and saved, and
the duration shown. -/
def outcome (s t : Screen) : List ℤ × ℤ :=
  ((t.paid.drop s.paid.length).map (·.moneyEarned), t.duration)

/-- A session that began with `paid` behind it and `total` seconds to go. -/
structure Session (paid : List Payout) (total : ℤ) (s : Screen) : Prop extends Inv s where
  started : s.hvStarted = true
  paidOnce : PaidOnce paid s
  initialDur_le_total : s.initialDur ≤ total

/-- A tick and the cancel button leave the initial duration; going on after the
dialog replaces it by what is left. -/
theorem initialDur_cases {s s' : Screen} {a : Action} (ha : Interrupts a ∨ a = .back)
    (h : step s a = some s') :
    s'.initialDur = s.initialDur ∧ (∀ now, a ≠ .dismiss now)
      ∨ (∃ now, a = .dismiss now) ∧ s.dialog = some .cancelTask
        ∧ s'.initialDur = s.duration := by
  rcases step_cases h with ⟨-, d, rfl, hslider⟩ | ⟨-, -, now, rfl, rfl⟩
    | ⟨-, -, -, now, rfl, rfl⟩ | ⟨-, -, now, rfl, rfl⟩ | ⟨-, -, -, rfl, rfl⟩
    | ⟨hdialog, now, rfl, rfl⟩ | ⟨-, rfl, rfl⟩ | ⟨-, rfl, rfl⟩
  · rcases hslider with ⟨n, rfl, -⟩ | ⟨n, rfl, -⟩ | ⟨n, rfl, -⟩ <;>
      exact absurd ha (by simp [Interrupts])
  · exact absurd ha (by simp [Interrupts])
  · exact .inl ⟨rfl, by simp⟩
  · exact .inl ⟨rfl, by simp⟩
  · exact .inl ⟨rfl, by simp⟩
  · exact .inr ⟨⟨now, rfl⟩, hdialog, rfl⟩
  · exact .inl ⟨rfl, by simp⟩
  · exact .inl ⟨rfl, by simp⟩

theorem Session.step {paid : List Payout} {total : ℤ} {s s' : Screen} {a : Action}
    (h : Session paid total s) (ha : Interrupts a) (hstep : step s a = some s') :
    Session paid total s' := by
  have hpaid := paidOnce_step h.toInv h.paidOnce h.started hstep
  refine ⟨h.toInv.step hstep, ?_, hpaid, ?_⟩
  · rcases step_cases hstep with ⟨hidle, -⟩ | ⟨hidle, -⟩ | ⟨-, -, hstarted, now, -, rfl⟩
      | ⟨-, -, now, -, rfl⟩ | ⟨hstarted, -, -, -, rfl⟩ | ⟨-, now, -, rfl⟩ | ⟨-, rfl, -⟩
      | ⟨-, rfl, -⟩
    · exact absurd h.started (by simp [hidle.1])
    · exact absurd h.started (by simp [hidle.1])
    · exact hstarted
    · exact h.started
    · exact hstarted
    · rfl
    · exact absurd ha (by simp [Interrupts])
    · exact absurd ha (by simp [Interrupts])
  · rcases initialDur_cases (.inl ha) hstep with ⟨hsame, -⟩ | ⟨-, -, hnew⟩
    · rw [hsame]
      exact h.initialDur_le_total
    · rw [hnew]
      exact (h.le_initialDur h.started).trans h.initialDur_le_total

/-- A session that ran to its completion and back: it comes to what the timer was
last started with. -/
theorem outcome_of_run {s s₁ t : Screen} {as : List Action} {total : ℤ}
    (hs : Session s.paid total s₁) (has : ∀ a ∈ as, Interrupts a)
    (hrun : run step s₁ (as ++ [.back]) = some t) :
    outcome s t = ([(timeString t.initialDur).total], t.initialDur) := by
  rw [run_append, Option.bind_eq_some_iff] at hrun
  obtain ⟨x, hx, hback⟩ := hrun
  have hkeep : ∀ x a x', Session s.paid total x → Interrupts a → CountDown.step x a = some x' →
      Session s.paid total x' := fun _ _ _ hx ha hstep => hx.step ha hstep
  have hsession := run_invariant_of_mem _ hkeep hs has hx
  rw [run_cons, Option.bind_eq_some_iff] at hback
  obtain ⟨y, hstep, hy⟩ := hback
  rw [run_nil, Option.some.injEq] at hy
  subst hy
  obtain ⟨hopen, heq⟩ := Option.ite_none_right_eq_some.mp hstep
  cases heq
  -- the dialog is open, so the session has paid
  rcases hsession.paidOnce with ⟨-, hclosed⟩ | ⟨p, hpaid, hmoney, -⟩
  · exact absurd hopen hclosed
  · simp [outcome, Screen.stopTimer, hpaid, hmoney]

/-- The initial duration is still the whole of it at the end exactly when no
dismissal came after a tick. -/
theorem initialDur_iff_meets {s t : Screen} {as : List Action} {paid : List Payout} {total : ℤ}
    (hs : Session paid total s) (htotal : s.initialDur = total)
    (has : ∀ a ∈ as, Interrupts a ∨ a = .back) (hrun : run step s as = some t) :
    t.initialDur = total ↔ Meets step Undisturbed s as := by
  have hinv : ∀ s a s', (Inv s ∧ s.initialDur ≤ total) → (Interrupts a ∨ a = .back) →
      CountDown.step s a = some s' → Inv s' ∧ s'.initialDur ≤ total := by
    intro s a s' h ha hstep
    refine ⟨h.1.step hstep, ?_⟩
    rcases initialDur_cases ha hstep with ⟨hsame, -⟩ | ⟨-, hdialog, hnew⟩
    · rw [hsame]
      exact h.2
    · rw [hnew]
      exact (h.1.le_initialDur (h.1.cancelTask hdialog)).trans h.2
  refine run_iff_meets (P := fun s => s.initialDur = total) hinv ?_ ?_
    ⟨hs.toInv, hs.initialDur_le_total⟩ htotal has hrun
  · intro s a s' h hs ha hstep
    unfold Undisturbed
    rcases initialDur_cases ha hstep with ⟨hsame, hne⟩ | ⟨⟨now, rfl⟩, -, hnew⟩
    · exact iff_of_true (hsame.trans hs) fun now hnow => absurd hnow (hne now)
    · rw [hnew, hs]
      exact ⟨fun h _ _ => h, fun h => h now rfl⟩
  · intro s a s' h hs ha hstep
    rcases initialDur_cases ha hstep with ⟨hsame, -⟩ | ⟨-, hdialog, hnew⟩
    · rw [hsame]
      exact hs
    · -- what is left is no more than a duration already too short
      have hle := h.1.le_initialDur (h.1.cancelTask hdialog)
      have hlt := h.2
      rw [hnew]
      omega

theorem session_of_start {s s₁ : Screen} {now : DateTime} (h : Inv s)
    (hstep : step s (.start now) = some s₁) :
    Session s.paid s.duration s₁ ∧ s₁.initialDur = s.duration := by
  have hinv : Inv s₁ := h.step hstep
  obtain ⟨⟨hidle, -⟩, heq⟩ := Option.ite_none_right_eq_some.mp hstep
  cases heq
  refine ⟨⟨hinv, rfl, .inl ⟨rfl, ?_⟩, le_refl _⟩, rfl⟩
  simp [Screen.startTimer, hidle.2]

/-- What a session comes to, and when that is what it was started with. -/
theorem session_spec {s t : Screen} {now : DateTime} {as : List Action} (h : Inv s)
    (has : ∀ a ∈ as, Interrupts a) (hrun : run step s (.start now :: as ++ [.back]) = some t) :
    outcome s t = ([(timeString t.initialDur).total], t.initialDur)
      ∧ (t.initialDur = s.duration
        ↔ Meets step Undisturbed s (.start now :: as ++ [.back])) := by
  rw [List.cons_append, run_cons, Option.bind_eq_some_iff] at hrun
  obtain ⟨s₁, hstart, hrun⟩ := hrun
  obtain ⟨hsession, htotal⟩ := session_of_start h hstart
  have hall : ∀ a ∈ as ++ [.back], Interrupts a ∨ a = .back := by
    intro a ha
    rcases List.mem_append.mp ha with ha | ha
    · exact .inl (has a ha)
    · exact .inr (List.mem_singleton.mp ha)
  refine ⟨outcome_of_run hsession has hrun, ?_⟩
  rw [initialDur_iff_meets hsession htotal hall hrun, List.cons_append, meets_cons]
  constructor
  · intro hmeets x hx
    rw [hstart, Option.some.injEq] at hx
    exact ⟨fun now hnow => absurd hnow (by simp), hx ▸ hmeets⟩
  · intro hmeets
    exact (hmeets s₁ hstart).2

/-- A timer that is let run counts to zero. -/
theorem run_ticks (now : DateTime) (n : ℕ) {s : Screen} (hactive : s.timer = .active)
    (hduration : s.duration = n) :
    run step s (List.replicate n (.tick now)) = some { s with duration := 0 } := by
  induction n generalizing s with
  | zero =>
      rw [List.replicate_zero, run_nil, ← hduration.trans Nat.cast_zero]
  | succ n ih =>
      have hne : ¬ (s.duration = 0 ∧ s.hvStarted = true) := by
        rintro ⟨hzero, -⟩
        omega
      have hstep : step s (.tick now) = some { s with duration := s.duration - 1 } := by
        rw [step, if_pos hactive, Screen.setCountDown, if_neg hne]
      rw [List.replicate_succ, run_cons, hstep, Option.bind_some]
      exact ih hactive (by show s.duration - 1 = n; omega)

/-- An uninterrupted session runs to its completion. -/
theorem exists_uninterrupted {s : Screen} (hidle : Idle s) (hten : 10 ≤ s.duration)
    (now : DateTime) :
    ∃ ts u, run step s (uninterrupted now ts) = some u := by
  obtain ⟨n, hn⟩ := Int.eq_ofNat_of_zero_le (le_trans (by decide) hten)
  have hstart : step s (.start now) = some (s.startTimer now) := by
    rw [step, if_pos ⟨hidle, hten⟩]
  have hcount := run_ticks now n (s := s.startTimer now) rfl hn
  -- at zero the next tick opens the dialog, and its button goes back
  obtain ⟨u, hu⟩ : ∃ u, run step { s.startTimer now with duration := 0 } [.tick now, .back]
      = some u := ⟨_, rfl⟩
  refine ⟨List.replicate n now ++ [now], u, ?_⟩
  rw [uninterrupted, List.map_append, List.map_replicate, List.cons_append, run_cons, hstart,
    Option.bind_some, List.append_assoc]
  exact run_trans _ hcount hu

/-- **When an interrupted session pays like an uninterrupted one**: exactly when
the dialog was never dismissed after a tick. -/
theorem interrupted_iff {money : ℤ} {pre as : List Action} {s t : Screen} {now : DateTime}
    (hs : run step (initial money) pre = some s) (has : ∀ a ∈ as, Interrupts a)
    (hrun : run step s (.start now :: as ++ [.back]) = some t) :
    (∃ ts u, run step s (uninterrupted now ts) = some u)
      ∧ ∀ start ts u, run step s (uninterrupted start ts) = some u →
        (outcome s t = outcome s u
          ↔ Meets step Undisturbed s (.start now :: as ++ [.back])) := by
  have hinv : Inv s := inv_run hs
  obtain ⟨hout, hiff⟩ := session_spec hinv has hrun
  refine ⟨?_, fun start ts u hu => ?_⟩
  · rw [List.cons_append, run_cons, Option.bind_eq_some_iff] at hrun
    obtain ⟨s₁, hstart, -⟩ := hrun
    obtain ⟨⟨hidle, hten⟩, -⟩ := Option.ite_none_right_eq_some.mp hstart
    exact exists_uninterrupted hidle hten now
  · have hticks : ∀ a ∈ ts.map Action.tick, Interrupts a := by
      intro a ha
      obtain ⟨now, -, rfl⟩ := List.mem_map.mp ha
      trivial
    obtain ⟨hout', hiff'⟩ := session_spec hinv hticks hu
    -- nothing is dismissed in the uninterrupted run
    have hfull : u.initialDur = s.duration := by
      apply hiff'.mpr
      intro pre' a hpre s₁ s₂ _ _ now' ha
      subst ha
      have hmem := hpre.subset (List.mem_append_right pre' (List.mem_singleton_self _))
      simp at hmem
    rw [hout, hout', ← hiff, Prod.mk.injEq, hfull]
    constructor
    · rintro ⟨-, hduration⟩
      exact hduration
    · intro hduration
      rw [hduration]
      exact ⟨rfl, rfl⟩

/-- Ten seconds are set, and the session interrupted after the first of them. -/
def tenSeconds : List Action := [.minutes 0, .seconds 10]

def interruptedAtNine (now : DateTime) : List Action :=
  [.tick now, .cancel, .dismiss now] ++ List.replicate 10 (.tick now)

/-- It pays nine coins, and the uninterrupted session ten. -/
theorem interrupted_ne :
    ∃ s t u, run step (initial 0) tenSeconds = some s
      ∧ run step s (.start (.ofMillis 0) :: interruptedAtNine (.ofMillis 0) ++ [.back]) = some t
      ∧ run step s (uninterrupted (.ofMillis 0) (List.replicate 11 (.ofMillis 0))) = some u
      ∧ outcome s t = ([9], 9) ∧ outcome s u = ([10], 10) :=
  ⟨_, _, _, rfl, rfl, rfl, rfl, rfl⟩

theorem interrupted_iff_tenSeconds :
    ∃ s t, run step (initial 0) tenSeconds = some s
      ∧ run step s (.start (.ofMillis 0) :: interruptedAtNine (.ofMillis 0) ++ [.back]) = some t
      ∧ (∃ ts u, run step s (uninterrupted (.ofMillis 0) ts) = some u)
      ∧ ∀ start ts u, run step s (uninterrupted start ts) = some u →
        (outcome s t = outcome s u ↔ Meets step Undisturbed s
          (.start (.ofMillis 0) :: interruptedAtNine (.ofMillis 0) ++ [.back])) := by
  have hs : run step (initial 0) tenSeconds
      = some { initial 0 with duration := 10 } := rfl
  refine ⟨_, _, hs, rfl, interrupted_iff hs ?_ rfl⟩
  simp [interruptedAtNine, Interrupts]

end AquaFocus.CountDown
