/-
`lib/screens/FocusTimer/countup_screen.dart`: the count-up timer, on a device
whose clock and timer keep time.

The screen counts ticks, and takes the start and the end of a session from the
clock; so the clock is part of the state. While the timer is active a tick comes
every second after it was started, and whatever else happens comes before the
tick that is due. `spans_iff` says when the two times a session is recorded with
are as far apart as the seconds it counted.
-/
import AquaFocus.CountDown

set_option autoImplicit false

open Dart Runs

namespace AquaFocus.CountUp

open CountDown (Timer Dialog Payout)

/-! ## The screen -/

structure Screen where
  duration : ℤ
  startTime : Option DateTime
  endTime : Option DateTime
  timer : Timer
  fishMoney : ℤ
  hvStarted : Bool
  dialog : Option Dialog
  paid : List Payout
  /-- what the home screen was last told to show -/
  homeMoney : ℤ
deriving DecidableEq

namespace Screen

/-- `startTimer`, for the first start and for going on after the dialog. -/
def startTimer (now : DateTime) (s : Screen) : Screen :=
  { s with
    hvStarted := true
    timer := .active
    startTime := some now }

/-- `setCountUp`. -/
def setCountUp (s : Screen) : Screen := { s with duration := s.duration + 1 }

/-- `stopTimer`. -/
def stopTimer (s : Screen) : Screen :=
  { s with
    hvStarted := false
    duration := 0
    timer := .cancelled }

/-- `_completeTaskDialog`, which pays as it is built. -/
def completeTaskDialog (now : DateTime) (s : Screen) : Screen :=
  let moneyEarned := (timeString s.duration).total
  { s with
    dialog := some .completeTask
    endTime := some now
    paid := s.paid ++ [⟨moneyEarned, now, s.startTime, some now⟩]
    fishMoney := s.fishMoney + moneyEarned }

end Screen

/-- What can happen; `press` is the button that reads `Done` from ten seconds on,
and `Cancel` before. -/
inductive Action
  | start
  | tick
  | press
  | no
  | yes
  | back
deriving DecidableEq

def act (now : DateTime) (s : Screen) : Action → Option Screen
  | .start =>
      if s.hvStarted = false ∧ s.dialog = none then some (s.startTimer now) else none
  | .tick => if s.timer = .active then some s.setCountUp else none
  | .press =>
      if s.hvStarted = true ∧ s.dialog = none then
        if 10 ≤ s.duration then some { s.completeTaskDialog now with timer := .cancelled }
        else some { s with dialog := some .cancelTask, timer := .cancelled }
      else none
  | .no =>
      if s.dialog = some .cancelTask then some { s.startTimer now with dialog := none } else none
  | .yes =>
      if s.dialog = some .cancelTask then some { s.stopTimer with dialog := none } else none
  | .back =>
      if s.dialog = some .completeTask then
        some { s.stopTimer with dialog := none, homeMoney := s.fishMoney }
      else none

/-! ## The clock -/

/-- The screen, the last reading of the clock, and when the next tick is due, in
microseconds. -/
structure Device where
  screen : Screen
  clock : ℤ
  due : ℤ
deriving DecidableEq

/-- The screen once `getMoney` has answered. -/
def initial (money clock : ℤ) : Device where
  screen :=
    { duration := 0
      startTime := none
      endTime := none
      timer := .unset
      fishMoney := money
      hvStarted := false
      dialog := none
      paid := []
      homeMoney := money }
  clock := clock
  due := clock

/-- The clock does not go back; an active timer ticks when it is due, and nothing
else waits for longer. -/
def Timely (x : Device) (a : Action) (now : ℤ) : Prop :=
  x.clock ≤ now ∧ (x.screen.timer = .active → if a = .tick then now = x.due else now < x.due)

instance (x : Device) (a : Action) (now : ℤ) : Decidable (Timely x a now) := by
  unfold Timely
  infer_instance

/-- When the next tick is due. -/
def nextDue (x : Device) (now : ℤ) : Action → ℤ
  | .start | .no => now + microsecondsPerSecond
  | .tick => x.due + microsecondsPerSecond
  | _ => x.due

def step (x : Device) (e : Action × ℤ) : Option Device :=
  if Timely x e.1 e.2 then
    (act (.ofMicros e.2) x.screen e.1).map fun s => ⟨s, e.2, nextDue x e.2 e.1⟩
  else none

/-! ## What a step does -/

theorem step_cases {x y : Device} {a : Action} {now : ℤ} (h : step x (a, now) = some y) :
    Timely x a now ∧ act (.ofMicros now) x.screen a = some y.screen
      ∧ y.clock = now ∧ y.due = nextDue x now a := by
  obtain ⟨htimely, heq⟩ := Option.ite_none_right_eq_some.mp h
  obtain ⟨s, hact, rfl⟩ := Option.map_eq_some_iff.mp heq
  exact ⟨htimely, hact, rfl, rfl⟩

/-- **What the screen does**: it starts or goes on, counts, pays, opens the cancel
dialog, or ends the session. -/
theorem act_cases {now : DateTime} {s s' : Screen} {a : Action} (h : act now s a = some s') :
    (a = .start ∧ s.hvStarted = false ∧ s.dialog = none ∧ s' = s.startTimer now)
      ∨ (a = .tick ∧ s.timer = .active ∧ s' = s.setCountUp)
      ∨ (a = .press ∧ s.hvStarted = true ∧ s.dialog = none ∧ 10 ≤ s.duration
        ∧ s' = { s.completeTaskDialog now with timer := .cancelled })
      ∨ (a = .press ∧ s.hvStarted = true ∧ s.dialog = none ∧ s.duration < 10
        ∧ s' = { s with dialog := some .cancelTask, timer := .cancelled })
      ∨ (a = .no ∧ s.dialog = some .cancelTask ∧ s' = { s.startTimer now with dialog := none })
      ∨ (a = .yes ∧ s.dialog = some .cancelTask ∧ s' = { s.stopTimer with dialog := none })
      ∨ (a = .back ∧ s.dialog = some .completeTask
        ∧ s' = { s.stopTimer with dialog := none, homeMoney := s.fishMoney }) := by
  cases a with
  | start =>
      obtain ⟨⟨hidle, hnone⟩, heq⟩ := Option.ite_none_right_eq_some.mp h
      exact .inl ⟨rfl, hidle, hnone, (Option.some.inj heq).symm⟩
  | tick =>
      obtain ⟨hactive, heq⟩ := Option.ite_none_right_eq_some.mp h
      exact .inr (.inl ⟨rfl, hactive, (Option.some.inj heq).symm⟩)
  | press =>
      obtain ⟨⟨hstarted, hnone⟩, heq⟩ := Option.ite_none_right_eq_some.mp h
      by_cases hten : 10 ≤ s.duration
      · rw [if_pos hten] at heq
        exact .inr (.inr (.inl ⟨rfl, hstarted, hnone, hten, (Option.some.inj heq).symm⟩))
      · rw [if_neg hten] at heq
        exact .inr (.inr (.inr (.inl ⟨rfl, hstarted, hnone, by omega,
          (Option.some.inj heq).symm⟩)))
  | no =>
      obtain ⟨hdialog, heq⟩ := Option.ite_none_right_eq_some.mp h
      exact .inr (.inr (.inr (.inr (.inl ⟨rfl, hdialog, (Option.some.inj heq).symm⟩))))
  | yes =>
      obtain ⟨hdialog, heq⟩ := Option.ite_none_right_eq_some.mp h
      exact .inr (.inr (.inr (.inr (.inr (.inl ⟨rfl, hdialog, (Option.some.inj heq).symm⟩)))))
  | back =>
      obtain ⟨hdialog, heq⟩ := Option.ite_none_right_eq_some.mp h
      exact .inr (.inr (.inr (.inr (.inr (.inr ⟨rfl, hdialog, (Option.some.inj heq).symm⟩)))))

/-- A started session has its timer running or a dialog open, and nothing is
counted outside one. -/
structure Inv (s : Screen) : Prop where
  duration_nonneg : 0 ≤ s.duration
  idle : s.hvStarted = false → s.duration = 0
  active : s.timer = .active ↔ s.hvStarted = true ∧ s.dialog = none
  started : s.dialog ≠ none → s.hvStarted = true

theorem inv_initial (money clock : ℤ) : Inv (initial money clock).screen := by
  constructor <;> simp [initial]

theorem Inv.act {now : DateTime} {s s' : Screen} {a : Action} (h : Inv s)
    (hact : act now s a = some s') : Inv s' := by
  obtain ⟨hd, hidle, hactive, hstarted⟩ := h
  rcases act_cases hact with ⟨-, -, hnone, rfl⟩ | ⟨-, htimer, rfl⟩ | ⟨-, hs, -, -, rfl⟩
    | ⟨-, hs, -, -, rfl⟩ | ⟨-, -, rfl⟩ | ⟨-, -, rfl⟩ | ⟨-, -, rfl⟩
  · exact ⟨hd, fun hs => by simp [Screen.startTimer] at hs,
      by simp [Screen.startTimer, hnone], fun _ => rfl⟩
  · have hs : s.hvStarted = true := (hactive.mp htimer).1
    refine ⟨?_, fun hs' => ?_, hactive, hstarted⟩
    · show 0 ≤ s.duration + 1
      omega
    · exact absurd hs (by simpa [Screen.setCountUp] using hs')
  · exact ⟨hd, fun hs' => absurd hs (by simpa [Screen.completeTaskDialog] using hs'),
      by simp [Screen.completeTaskDialog], fun _ => hs⟩
  · exact ⟨hd, fun hs' => absurd hs (by simpa using hs'), by simp, fun _ => hs⟩
  · exact ⟨hd, fun hs => by simp [Screen.startTimer] at hs, by simp [Screen.startTimer],
      fun _ => rfl⟩
  · exact ⟨le_refl 0, fun _ => rfl, by simp [Screen.stopTimer], fun hs => by simp at hs⟩
  · exact ⟨le_refl 0, fun _ => rfl, by simp [Screen.stopTimer], fun hs => by simp at hs⟩

/-! ## Sessions -/

/-- The timer was last started at `since`, and has ticked `ticks` times. -/
structure Counting (x : Device) (since ticks : ℤ) : Prop where
  startTime : x.screen.startTime = some (.ofMicros since)
  due : x.due = since + seconds (ticks + 1)
  ticks_nonneg : 0 ≤ ticks
  ticks_le : ticks ≤ x.screen.duration
  ticked : since + seconds ticks ≤ x.clock

/-- A session that began with `paid` behind it. -/
structure Session (paid : List Payout) (x : Device) : Prop where
  inv : Inv x.screen
  paid_eq : x.screen.dialog ≠ some .completeTask → x.screen.paid = paid
  counting : ∃ since ticks, Counting x since ticks

/-- What happens between a Start and `Done`. -/
def Interrupts (e : Action × ℤ) : Prop := e.1 = .tick ∨ e.1 = .press ∨ e.1 = .no

/-- The cancel dialog is dismissed before anything was counted. -/
def Uncounted (x : Device) (e : Action × ℤ) : Prop := e.1 = .no → x.screen.duration = 0

/-- All that is counted was counted since the timer was last started. -/
def Whole (x : Device) : Prop := ∃ since, Counting x since x.screen.duration

theorem Counting.unique {x : Device} {since ticks since' ticks' : ℤ} (h : Counting x since ticks)
    (h' : Counting x since' ticks') : since = since' ∧ ticks = ticks' := by
  have hs := h.startTime.symm.trans h'.startTime
  rw [Option.some.injEq] at hs
  have hsince : since = since' := congrArg DateTime.microsecondsSinceEpoch hs
  have hdue := h.due.symm.trans h'.due
  simp only [seconds, microsecondsPerSecond] at hdue
  exact ⟨hsince, by omega⟩

theorem Counting.whole_iff {x : Device} {since ticks : ℤ} (h : Counting x since ticks) :
    Whole x ↔ ticks = x.screen.duration := by
  constructor
  · rintro ⟨since', h'⟩
    exact (h.unique h').2
  · rintro rfl
    exact ⟨since, h⟩

/-- A tick counts on both sides, going on counts from zero on one of them, and
the rest leaves both alone. -/
theorem Counting.step {x y : Device} {e : Action × ℤ} {since ticks : ℤ} (h : Counting x since ticks)
    (hinv : Inv x.screen) (he : Interrupts e) (hstep : step x e = some y) :
    (e.1 ≠ .no ∧ ∃ n, y.screen.duration = x.screen.duration + n ∧ Counting y since (ticks + n))
      ∨ (e.1 = .no ∧ y.screen.duration = x.screen.duration ∧ Counting y e.2 0) := by
  obtain ⟨a, now⟩ := e
  obtain ⟨htimely, hact, hclock, hdue⟩ := step_cases hstep
  have hticks := h.ticks_nonneg
  have hle := h.ticks_le
  have hticked := h.ticked
  have hstart := h.startTime
  have hd := hinv.duration_nonneg
  have hnow := htimely.1
  rcases act_cases hact with ⟨rfl, -⟩ | ⟨rfl, hactive, hs⟩ | ⟨rfl, -, -, -, hs⟩
    | ⟨rfl, -, -, -, hs⟩ | ⟨rfl, -, hs⟩ | ⟨rfl, -⟩ | ⟨rfl, -⟩
  · exact absurd he (by simp [Interrupts])
  · -- a tick comes when it is due
    have hat : now = x.due := by simpa using htimely.2 hactive
    have hlast := h.due
    refine .inl ⟨by simp, 1, by rw [hs]; rfl, ⟨by rw [hs]; exact hstart, ?_, by omega, ?_, ?_⟩⟩
    · rw [hdue, nextDue, hlast]
      simp only [seconds, microsecondsPerSecond]
      omega
    · rw [hs]
      show ticks + 1 ≤ x.screen.duration + 1
      omega
    · rw [hclock, hat, hlast]
  · refine .inl ⟨by simp, 0, by rw [hs, add_zero]; rfl, ?_⟩
    rw [add_zero]
    refine ⟨by rw [hs]; exact hstart, by rw [hdue]; exact h.due, hticks, ?_, by omega⟩
    rw [hs]
    exact hle
  · refine .inl ⟨by simp, 0, by rw [hs, add_zero], ?_⟩
    rw [add_zero]
    refine ⟨by rw [hs]; exact hstart, by rw [hdue]; exact h.due, hticks, ?_, by omega⟩
    rw [hs]
    exact hle
  · refine .inr ⟨rfl, by rw [hs]; rfl, ⟨by rw [hs]; rfl, ?_, le_refl 0, ?_, ?_⟩⟩
    · rw [hdue, nextDue]
      simp only [seconds, zero_add, one_mul]
    · rw [hs]
      exact hd
    · rw [hclock]
      simp only [seconds, zero_mul, add_zero, le_refl]
  · exact absurd he (by simp [Interrupts])
  · exact absurd he (by simp [Interrupts])

theorem Session.step {paid : List Payout} {x y : Device} {e : Action × ℤ} (h : Session paid x)
    (he : Interrupts e) (hstep : step x e = some y) : Session paid y := by
  obtain ⟨a, now⟩ := e
  have hact := (step_cases hstep).2.1
  obtain ⟨since, ticks, hcounting⟩ := h.counting
  refine ⟨h.inv.act hact, fun hopen => ?_, ?_⟩
  · rcases act_cases hact with ⟨rfl, -⟩ | ⟨-, hactive, hs⟩ | ⟨-, -, -, -, hs⟩
      | ⟨-, -, hnone, -, hs⟩ | ⟨-, hdialog, hs⟩ | ⟨rfl, -⟩ | ⟨rfl, -⟩
    · exact absurd he (by simp [Interrupts])
    · rw [hs]
      exact h.paid_eq (by simp [(h.inv.active.mp hactive).2])
    · exact absurd hopen (by simp [hs, Screen.completeTaskDialog])
    · rw [hs]
      exact h.paid_eq (by simp [hnone])
    · rw [hs]
      exact h.paid_eq (by simp [hdialog])
    · exact absurd he (by simp [Interrupts])
    · exact absurd he (by simp [Interrupts])
  · rcases hcounting.step h.inv he hstep with ⟨-, n, -, hc⟩ | ⟨-, -, hc⟩
    · exact ⟨since, ticks + n, hc⟩
    · exact ⟨now, 0, hc⟩

theorem Session.run {paid : List Payout} {x y : Device} {es : List (Action × ℤ)}
    (h : Session paid x) (hes : ∀ e ∈ es, Interrupts e) (hrun : run CountUp.step x es = some y) :
    Session paid y := by
  have hkeep : ∀ x e y, Session paid x → Interrupts e → CountUp.step x e = some y →
      Session paid y := fun _ _ _ hx he hstep => hx.step he hstep
  exact run_invariant_of_mem _ hkeep h hes hrun

/-- Going on after the dialog forgets what was counted before. -/
theorem whole_step_iff {paid : List Payout} {x y : Device} {e : Action × ℤ} (h : Session paid x)
    (he : Interrupts e) (hstep : step x e = some y) :
    Whole y ↔ if e.1 = .no then x.screen.duration = 0 else Whole x := by
  obtain ⟨since, ticks, hcounting⟩ := h.counting
  rw [hcounting.whole_iff]
  rcases hcounting.step h.inv he hstep with ⟨hne, n, hn, hc⟩ | ⟨hno, hd, hc⟩
  · rw [hc.whole_iff, if_neg hne, hn]
    omega
  · rw [hc.whole_iff, if_pos hno, hd]
    exact eq_comm

theorem whole_iff_meets {paid : List Payout} {x y : Device} {es : List (Action × ℤ)}
    (hx : Session paid x) (hwhole : Whole x) (hes : ∀ e ∈ es, Interrupts e)
    (hrun : run step x es = some y) : Whole y ↔ Meets step Uncounted x es := by
  have hinv : ∀ x e y, Session paid x → Interrupts e → CountUp.step x e = some y →
      Session paid y := fun _ _ _ hx he hstep => hx.step he hstep
  refine run_iff_meets hinv ?_ ?_ hx hwhole hes hrun
  · intro x e y hx hwhole he hstep
    rw [whole_step_iff hx he hstep]
    unfold Uncounted
    by_cases hno : e.1 = .no
    · rw [if_pos hno]
      exact ⟨fun h _ => h, fun h => h hno⟩
    · rw [if_neg hno]
      exact iff_of_true hwhole fun h => absurd h hno
  · intro x e y hx hlost he hstep
    rw [whole_step_iff hx he hstep]
    by_cases hno : e.1 = .no
    · -- with ticks forgotten the duration is not zero
      rw [if_pos hno]
      obtain ⟨since, ticks, hcounting⟩ := hx.counting
      rw [hcounting.whole_iff] at hlost
      have hticks := hcounting.ticks_nonneg
      have hle := hcounting.ticks_le
      omega
    · rw [if_neg hno]
      exact hlost

theorem session_of_start {x y : Device} {now : ℤ} (h : Inv x.screen)
    (hstep : step x (.start, now) = some y) : Session x.screen.paid y ∧ Whole y := by
  obtain ⟨-, hact, hclock, hdue⟩ := step_cases hstep
  have hinv : Inv y.screen := h.act hact
  obtain ⟨⟨hidle, hnone⟩, heq⟩ := Option.ite_none_right_eq_some.mp hact
  rw [Option.some.injEq] at heq
  have hzero : y.screen.duration = 0 := by
    rw [← heq]
    exact h.idle hidle
  have hcounting : Counting y now 0 := by
    refine ⟨by rw [← heq]; rfl, ?_, le_refl 0, by rw [hzero], ?_⟩
    · rw [hdue, nextDue]
      simp only [seconds, zero_add, one_mul]
    · rw [hclock]
      simp only [seconds, zero_mul, add_zero, le_refl]
  refine ⟨⟨hinv, fun _ => ?_, now, 0, hcounting⟩, now, by rw [hzero]; exact hcounting⟩
  rw [← heq]
  rfl

/-- `Done` records a session over at least what it counted exactly when all of
that was counted since the timer was last started. -/
theorem done_spec {paid : List Payout} {x y : Device} {now : ℤ} (hx : Session paid x)
    (hstep : step x (.press, now) = some y) (hdone : y.screen.dialog = some .completeTask) :
    ∃ p start stop, y.screen.paid = paid ++ [p]
      ∧ p.moneyEarned = (timeString y.screen.duration).total
      ∧ p.startTime = some start ∧ p.endTime = some stop
      ∧ (seconds y.screen.duration ≤ stop.difference start ↔ Whole x) := by
  obtain ⟨htimely, hact, -, -⟩ := step_cases hstep
  obtain ⟨since, ticks, hcounting⟩ := hx.counting
  rcases act_cases hact with ⟨hne, -⟩ | ⟨hne, -⟩ | ⟨-, hstarted, hnone, -, hs⟩
    | ⟨-, -, -, -, hs⟩ | ⟨hne, -⟩ | ⟨hne, -⟩ | ⟨hne, -⟩
  · cases hne
  · cases hne
  · have hactive : x.screen.timer = .active := hx.inv.active.mpr ⟨hstarted, hnone⟩
    have hduration : y.screen.duration = x.screen.duration := by
      rw [hs]
      rfl
    have hpaid : x.screen.paid = paid := hx.paid_eq (by simp [hnone])
    refine ⟨⟨(timeString x.screen.duration).total, .ofMicros now, x.screen.startTime,
      some (.ofMicros now)⟩, .ofMicros since, .ofMicros now, by rw [hs, ← hpaid]; rfl,
      by rw [hduration], hcounting.startTime, rfl, ?_⟩
    -- the button is pressed before the next tick is due
    have hbefore : now < x.due := by simpa using htimely.2 hactive
    have hafter := htimely.1
    have hdue := hcounting.due
    have hticked := hcounting.ticked
    have hle := hcounting.ticks_le
    rw [hcounting.whole_iff, hduration]
    simp only [DateTime.difference, DateTime.ofMicros, seconds, microsecondsPerSecond] at *
    omega
  · rw [hs] at hdone
    cases hdone
  · cases hne
  · cases hne
  · cases hne

theorem inv_run {money clock : ℤ} {es : List (Action × ℤ)} {x : Device}
    (h : run step (initial money clock) es = some x) : Inv x.screen := by
  have hkeep : ∀ x e y, Inv x.screen → step x e = some y → Inv y.screen :=
    fun _ _ _ h hstep => h.act (step_cases hstep).2.1
  exact run_invariant _ hkeep (inv_initial money clock) h

/-- **What a session is recorded over**: a time at least as long as the seconds it
counted, exactly when the cancel dialog was never dismissed after a tick. What is
paid is no more than the seconds counted. -/
theorem spans_iff {money clock : ℤ} {pre es : List (Action × ℤ)} {x y : Device} {t t' : ℤ}
    (hx : run step (initial money clock) pre = some x) (hes : ∀ e ∈ es, Interrupts e)
    (hrun : run step x ((.start, t) :: es ++ [(.press, t')]) = some y)
    (hdone : y.screen.dialog = some .completeTask) :
    ∃ p start stop, y.screen.paid = x.screen.paid ++ [p]
      ∧ p.moneyEarned = (timeString y.screen.duration).total
      ∧ p.moneyEarned ≤ y.screen.duration
      ∧ p.startTime = some start ∧ p.endTime = some stop
      ∧ (seconds y.screen.duration ≤ stop.difference start
        ↔ Meets step Uncounted x ((.start, t) :: es ++ [(.press, t')])) := by
  have hinv : Inv x.screen := inv_run hx
  have hfrom := run_trans _ hx hrun
  have hend : Inv y.screen := inv_run hfrom
  rw [List.cons_append, run_cons, Option.bind_eq_some_iff] at hrun
  obtain ⟨x₁, hstart, hrun⟩ := hrun
  obtain ⟨hsession, hwhole⟩ := session_of_start hinv hstart
  have hrun' := hrun
  rw [run_append, Option.bind_eq_some_iff] at hrun
  obtain ⟨x₂, hx₂, hlast⟩ := hrun
  rw [run_cons, Option.bind_eq_some_iff] at hlast
  obtain ⟨y', hpress, hy⟩ := hlast
  rw [run_nil, Option.some.injEq] at hy
  subst hy
  have hsession₂ : Session x.screen.paid x₂ := hsession.run hes hx₂
  obtain ⟨p, start, stop, hpaid, hmoney, hstartTime, hendTime, hiff⟩ :=
    done_spec hsession₂ hpress hdone
  refine ⟨p, start, stop, hpaid, hmoney, ?_, hstartTime, hendTime, ?_⟩
  · rw [hmoney]
    exact total_le hend.duration_nonneg
  · -- pressing the button keeps what the session is
    have hpressed : Whole y' ↔ Whole x₂ := by
      rw [whole_step_iff hsession₂ (.inr (.inl rfl)) hpress, if_neg (by simp)]
    have hall : ∀ e ∈ es ++ [(.press, t')], Interrupts e := by
      intro e he
      rcases List.mem_append.mp he with he | he
      · exact hes e he
      · exact .inr (.inl (congrArg Prod.fst (List.mem_singleton.mp he)))
    rw [hiff, ← hpressed, whole_iff_meets hsession hwhole hall hrun', List.cons_append,
      meets_cons]
    constructor
    · intro hmeets v hv
      rw [hstart, Option.some.injEq] at hv
      exact ⟨fun hno => absurd hno (by simp), hv ▸ hmeets⟩
    · intro hmeets
      exact (hmeets x₁ hstart).2

/-- The button is pressed after one second, the dialog dismissed four seconds
later, and nine more seconds counted. -/
def resumed : List (Action × ℤ) :=
  [(Action.tick, 1000000), (Action.press, 1200000), (Action.no, 5000000)]
    ++ [6, 7, 8, 9, 10, 11, 12, 13, 14].map fun i => (Action.tick, seconds i)

/-- Ten seconds are counted and paid, and recorded over nine and a half. -/
theorem not_spans :
    ∃ y, run step (initial 0 0) ((.start, 0) :: resumed ++ [(.press, 14500000)]) = some y
      ∧ y.screen.duration = 10
      ∧ y.screen.paid
        = [⟨10, .ofMicros 14500000, some (.ofMicros 5000000), some (.ofMicros 14500000)⟩]
      ∧ ¬ seconds 10 ≤ (DateTime.ofMicros 14500000).difference (.ofMicros 5000000) :=
  ⟨_, rfl, rfl, rfl, by decide⟩

theorem spans_iff_resumed :
    ∃ y, run step (initial 0 0) ((.start, 0) :: resumed ++ [(.press, 14500000)]) = some y
      ∧ ∃ p start stop, y.screen.paid = [] ++ [p]
        ∧ p.moneyEarned = (timeString y.screen.duration).total
        ∧ p.moneyEarned ≤ y.screen.duration
        ∧ p.startTime = some start ∧ p.endTime = some stop
        ∧ (seconds y.screen.duration ≤ stop.difference start ↔ Meets step Uncounted (initial 0 0)
          ((.start, 0) :: resumed ++ [(.press, 14500000)])) := by
  have hx : run step (initial 0 0) [] = some (initial 0 0) := rfl
  have hes : ∀ e ∈ resumed, Interrupts e := by
    unfold Interrupts
    decide
  exact ⟨_, rfl, spans_iff hx hes rfl rfl⟩

end AquaFocus.CountUp
