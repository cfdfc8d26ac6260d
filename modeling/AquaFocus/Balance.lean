/-
The balance, in all the screens that read it or write it, on one device.

The home screen (`home_screen.dart`) keeps the balance it shows in a field of
its own and hands the others a callback, `_updateHomeScreen`. From it open the
tasks, the shop and the focus timer; the last has two tabs, and a tab that is
shown anew is a screen made anew, which reads the balance again. Here they are
one machine: the screens of `TaskOps.lean`, `ShopScreen.lean`, `CountDown.lean`
and `CountUp.lean`, over one account. Every handler runs to its end before the
next event; those that overlap are in `Overlap.lean` and `Ledger.lean`.

The dialog of a timer pays as it opens, and its button tells the home screen.
The back button of the system closes the dialog as well, and tells nothing:
`home_iff_button` says that this is the one way for the home screen to fall
behind, and `money_books` where every coin of the balance comes from.
-/
import AquaFocus.Overlap
import AquaFocus.ShopScreen
import AquaFocus.CountUp
import AquaFocus.FocusTime
import AquaFocus.Lib.Tally

set_option autoImplicit false

open Dart Runs Calls

namespace AquaFocus.Balance

open CountDown (Payout)
open FocusTime (Readings Collection saveFocusTime)

/-! ## The app -/

inductive Screen
  | home
  | tasks
  | shop (screen : Shop.Screen)
  | countDown (s : CountDown.Screen)
  | countUp (x : CountUp.Device)

/-- The account, the device, and what the shop has deducted so far. The home
screen's balance is `world.fishMoney`. -/
structure App (κ : Type) where
  world : World κ
  marLives : Option (List ℤ)
  focus : Collection
  charges : List Shop.Charge
  screen : Screen

inductive Event
  | openTasks
  /-- Save, in the form of a new task -/
  | newTask (c : Clock) (docId uid uuid : String) (data : FormData)
  | task (c : Clock) (docId : String) (op : TaskOp)
  /-- a completion whose dialog is left without its button -/
  | dismissed (c : Clock) (docId : String)
  | shop (tap : Shop.Tap)
  | openTimer
  | showCountDown
  | showCountUp (now : ℤ)
  | countDown (a : CountDown.Action) (readings : Readings)
  | countUp (e : CountUp.Action × ℤ) (readings : Readings)
  /-- the back button of the system, outside the shop -/
  | systemBack

/-- The call of `saveFocusTime` a payout makes. The clock does not go back. -/
def focusCall (p : Payout) (readings : Readings) : Option FocusTime.Call :=
  match p.startTime, p.endTime with
  | some startTime, some endTime =>
      if h : 0 ≤ p.moneyEarned ∧ startTime.microsecondsSinceEpoch ≤ endTime.microsecondsSinceEpoch
          ∧ (p.date :: readings.toList).Pairwise
            fun t u => t.microsecondsSinceEpoch ≤ u.microsecondsSinceEpoch then
        some {
          duration := p.moneyEarned
          caller := p.date
          startTime := startTime
          endTime := endTime
          readings := readings
          duration_nonneg := h.1
          start_le_end := h.2.1
          inOrder := h.2.2 }
      else none
  | _, _ => none

/-- The screens of the shop, of which the home screen is one. -/
def Screen.toShop : Screen → Option Shop.Screen
  | .home => some .home
  | .shop screen => some screen
  | _ => none

def Screen.ofShop : Shop.Screen → Screen
  | .home => .home
  | screen => .shop screen

namespace App

variable {κ : Type}

/-- `getNameAndMoney` has answered. -/
def atHome (w : World κ) (marLives : Option (List ℤ)) (focus : Collection) : App κ where
  world := Overlap.atHome w
  marLives := marLives
  focus := focus
  charges := []
  screen := .home

def toShop (a : App κ) (screen : Shop.Screen) : Shop.App where
  doc := ⟨a.world.money, a.marLives⟩
  fishMoney := a.world.fishMoney
  screen := screen
  charges := a.charges

def ofShop (a : App κ) (s : Shop.App) : App κ where
  world := { a.world with money := s.doc.money, fishMoney := s.fishMoney }
  marLives := s.doc.marlives
  focus := a.focus
  charges := s.charges
  screen := .ofShop s.screen

/-- What a payout writes. -/
def pay (z : Zone) (a : App κ) (call : FocusTime.Call) : App κ :=
  { a with
    world := { a.world with money := a.world.money + call.duration }
    focus := saveFocusTime z a.focus call }

/-- A timer went on from `before` to `after`, and may have paid on the way. -/
def settle (z : Zone) (readings : Readings) (before after : List Payout) (a : App κ) :
    Option (App κ) :=
  match (after.drop before.length).head? with
  | none => some a
  | some p => (focusCall p readings).map (a.pay z)

/-- `_updateHomeScreen`, if it is called. -/
def tell (homeMoney : Option ℤ) (a : App κ) : App κ :=
  { a with world := { a.world with fishMoney := homeMoney.getD a.world.fishMoney } }

end App

variable {κ : Type} [DecidableEq κ] (key : AppTask → κ) (z : Zone)

/-- `Navigator.pop`, of a timer's dialog or of the screen itself. -/
def Screen.popped : Screen → Option Screen
  | .home | .shop _ => none
  | .tasks => some .home
  | .countDown s =>
      if s.dialog = none then some .home else some (.countDown { s with dialog := none })
  | .countUp x =>
      if x.screen.dialog = none then some .home
      else some (.countUp { x with screen := { x.screen with dialog := none } })

def step (a : App κ) : Event → Option (App κ)
  | .openTasks =>
      match a.screen with
      | .home => some { a with screen := .tasks }
      | _ => none
  | .newTask c docId uid uuid data =>
      match a.screen, a.world.tasks docId with
      -- the store gives an id that it has not given before
      | .tasks, none =>
          let calls := createTask z c docId (newTask z uid uuid data)
          some { a with world := (perform (exec key z c) calls a.world.fresh).1 }
      | _, _ => none
  | .task c docId op =>
      match a.screen, a.world.tasks docId with
      | .tasks, some d =>
          if op.offered d then some { a with world := performOp key z docId (c, op) a.world }
          else none
      | _, _ => none
  | .dismissed c docId =>
      match a.screen, a.world.tasks docId with
      | .tasks, some d =>
          if TaskOp.complete.offered d then
            let calls := processCompletion z c (.fromDS docId d)
            some { a with world := (perform (exec key z c) calls a.world.fresh).1 }
          else none
      | _, _ => none
  | .shop tap =>
      match a.screen.toShop with
      | some screen => (Shop.step (a.toShop screen) tap).map a.ofShop
      | none => none
  | .openTimer =>
      match a.screen with
      | .home => some { a with screen := .countDown (CountDown.initial a.world.money) }
      | _ => none
  | .showCountDown =>
      match a.screen with
      | .countUp x =>
          -- the tabs are there outside a session only
          if x.screen.hvStarted then none
          else some { a with screen := .countDown (CountDown.initial a.world.money) }
      | _ => none
  | .showCountUp now =>
      match a.screen with
      | .countDown s =>
          if s.hvStarted then none
          else some { a with screen := .countUp (CountUp.initial a.world.money now) }
      | _ => none
  | .countDown act readings =>
      match a.screen with
      | .countDown s =>
          (CountDown.step s act).bind fun s' =>
            (a.settle z readings s.paid s'.paid).map fun a' =>
              { a'.tell (if act = .back then some s'.homeMoney else none) with
                screen := .countDown s' }
      | _ => none
  | .countUp e readings =>
      match a.screen with
      | .countUp x =>
          (CountUp.step x e).bind fun x' =>
            (a.settle z readings x.screen.paid x'.screen.paid).map fun a' =>
              { a'.tell (if e.1 = .back then some x'.screen.homeMoney else none) with
                screen := .countUp x' }
      | _ => none
  | .systemBack => a.screen.popped.map fun screen => { a with screen := screen }

/-! ## The figures

What the books are kept of: the balance stored, the one the home screen shows,
the time of all days, and the prices deducted. -/

structure Figures where
  money : ℤ
  home : ℤ
  focused : ℤ
  charged : ℤ
  /-- the dialog of a completed session is open -/
  completing : Bool

def totalTime (docs : Collection) : ℤ := (docs.map (·.2.totalTime)).sum

def Screen.completing : Screen → Bool
  | .countDown s => decide (s.dialog = some .completeTask)
  | .countUp x => decide (x.screen.dialog = some .completeTask)
  | _ => false

def App.figures (a : App κ) : Figures where
  money := a.world.money
  home := a.world.fishMoney
  focused := totalTime a.focus
  charged := (a.charges.map (·.marLife.price)).sum
  completing := a.screen.completing

/-- The coins of a completion, where the event is one that runs to its end. -/
def earned (a : App κ) : Event → ℤ
  | .task c docId .complete =>
      match a.world.tasks docId with
      | some d => coins z c (.fromDS docId d)
      | none => 0
  | _ => 0

/-- Everything an event can do to the figures, but for one case (`Lost`). -/
inductive Figures.Change (f : Figures) : ℤ → Figures → Prop
  | quiet (h : f.completing = false) : Change f 0 f
  | earned (n : ℤ) (hn : 0 < n) (h : f.completing = false) :
      Change f n { f with money := f.money + n, home := f.money + n }
  | bought (price : ℤ) (hprice : price ≤ f.money) (h : f.completing = false) :
      Change f 0 { f with
        money := f.money - price, home := f.money - price, charged := f.charged + price }
  | paid (n : ℤ) (hn : 0 < n) (h : f.completing = false) :
      Change f 0 { f with money := f.money + n, focused := f.focused + n, completing := true }
  | told (h : f.completing = true) : Change f 0 { f with home := f.money, completing := false }

/-- The dialog of a completed session is closed by the system's back button. -/
def Lost (a : App κ) (e : Event) : Prop := e = .systemBack ∧ a.screen.completing = true

/-- The home screen is behind while the dialog is open, and never ahead. -/
structure Figures.Inv (f : Figures) : Prop where
  home_nonneg : 0 ≤ f.home
  home_le : f.home ≤ f.money
  behind : f.completing = true → f.home < f.money

/-- With no such dialog open, the home screen shows the balance. -/
def Figures.Agree (f : Figures) : Prop := f.completing = false → f.home = f.money

namespace Figures

variable {f f' : Figures} {n : ℤ}

theorem Inv.change (h : f.Inv) (hchange : f.Change n f') : f'.Inv := by
  obtain ⟨hnonneg, hle, hbehind⟩ := h
  cases hchange with
  | quiet => exact ⟨hnonneg, hle, hbehind⟩
  | earned _ hn hclosed =>
      -- the home screen is told the balance it was behind with
      refine ⟨?_, le_refl _, fun hopen => absurd hopen (by simp [hclosed])⟩
      exact add_nonneg (hnonneg.trans hle) hn.le
  | bought price hprice hclosed =>
      refine ⟨?_, le_refl _, fun hopen => absurd hopen (by simp [hclosed])⟩
      exact sub_nonneg.mpr hprice
  | paid n hn =>
      -- stored at once, shown only by the dialog's button
      refine ⟨hnonneg, ?_, fun _ => ?_⟩
      · exact hle.trans (le_add_of_nonneg_right hn.le)
      · exact lt_add_of_le_of_pos hle hn
  | told => exact ⟨hnonneg.trans hle, le_refl _, fun hopen => absurd hopen (by simp)⟩

theorem Agree.change (h : f.Agree) (hchange : f.Change n f') : f'.Agree := by
  cases hchange with
  | quiet => exact h
  | earned => exact fun _ => rfl
  | bought => exact fun _ => rfl
  | paid => exact fun hclosed => absurd hclosed (by simp)
  | told => exact fun _ => rfl

/-- The columns of the books. -/
theorem Change.books (hchange : f.Change n f') :
    f'.money + f'.charged - f'.focused = f.money + f.charged - f.focused + n := by
  cases hchange with
  | quiet => exact (add_zero _).symm
  | earned => simp only; omega
  | bought => simp only; omega
  | paid => simp only; omega
  | told => exact (add_zero _).symm

end Figures

/-! ## Tasks -/

/-- A call that neither credits anything nor tells the home screen. -/
def Quiet (call : Call) : Prop := Overlap.credit call = 0 ∧ Overlap.toHome call = false

section Tasks

variable {key} {z} {c : Clock} {w : World κ} {docId : String} {d : TaskDoc}

theorem exec_quiet {call : Call} {w' : World κ} (hcall : Quiet call)
    (h : exec key z c call w = .ok w') : w'.money = w.money ∧ w'.fishMoney = w.fishMoney := by
  obtain ⟨hmoney, hhome⟩ := Overlap.exec_money h
  rw [hcall.1, add_zero] at hmoney
  refine ⟨hmoney, hhome.trans ?_⟩
  split
  · exact absurd hcall.2 (by simp [Overlap.toHome])
  · rfl

theorem perform_quiet {calls : List Call} (h : ∀ call ∈ calls, Quiet call) (w : World κ) :
    (perform (exec key z c) calls w).1.money = w.money
      ∧ (perform (exec key z c) calls w).1.fishMoney = w.fishMoney := by
  have hquiet : ∀ call ∈ calls, ∀ w₁ w₂ : World κ, exec key z c call w₁ = .ok w₂ →
      w₂.money = w₁.money ∧ w₂.fishMoney = w₁.fishMoney :=
    fun call hcall _ _ hexec => exec_quiet (h call hcall) hexec
  constructor
  · exact view_perform World.money (fun call hcall _ _ he => (hquiet call hcall _ _ he).1) w
  · exact view_perform World.fishMoney (fun call hcall _ _ he => (hquiet call hcall _ _ he).2) w

theorem quiet_removeNotification (task : AppTask) :
    ∀ call ∈ removeNotification z c task, Quiet call := by
  intro call hcall
  rcases mem_removeNotification hcall with rfl | ⟨fault, rfl⟩
  · exact ⟨rfl, rfl⟩
  · exact ⟨rfl, rfl⟩

theorem quiet_createTask (data : TaskDoc) : ∀ call ∈ createTask z c docId data, Quiet call := by
  intro call hcall
  rcases List.mem_cons.mp hcall with rfl | hcall
  · exact ⟨rfl, rfl⟩
  · rcases mem_addNotification hcall with ⟨t, rfl⟩ | ⟨fault, rfl⟩
    · exact ⟨rfl, rfl⟩
    · exact ⟨rfl, rfl⟩

theorem quiet_editTask (task : AppTask) (data : FormData) :
    ∀ call ∈ editTask z c task data, Quiet call := by
  intro call hcall
  rcases List.mem_append.mp hcall with hcall | hcall
  · exact quiet_removeNotification task call hcall
  · simp only [List.mem_cons, List.not_mem_nil, or_false] at hcall
    rcases hcall with rfl | rfl | rfl <;> exact ⟨rfl, rfl⟩

/-- The calls of the repeating branch, of which one writes. -/
theorem mem_reschedule_cases {task : AppTask} {streak : ℤ} {next : Option DateTime} {call : Call}
    (h : call ∈ reschedule z c task streak next) :
    (∃ t, next = some t ∧ call = .updateData task.id (rescheduled z c task streak t))
      ∨ call = .getSingle task.id ∨ call = .addNotification := by
  cases next with
  | none => exact absurd h List.not_mem_nil
  | some t =>
      rcases List.mem_cons.mp h with rfl | h
      · exact .inl ⟨t, rfl, rfl⟩
      · unfold remind at h
        by_cases ht : task.hasTime = true
        · rw [if_pos ht] at h
          simp only [List.mem_cons, List.not_mem_nil, or_false] at h
          exact .inr h
        · rw [if_neg ht] at h
          exact absurd h List.not_mem_nil

theorem quiet_reschedule (task : AppTask) (streak : ℤ) (next : Option DateTime) :
    ∀ call ∈ reschedule z c task streak next, Quiet call := by
  intro call hcall
  rcases mem_reschedule_cases hcall with ⟨t, -, rfl⟩ | rfl | rfl <;> exact ⟨rfl, rfl⟩

/-- A completion up to its dialog. -/
theorem quiet_processCompletion (task : AppTask) :
    ∀ call ∈ processCompletion z c task, Quiet call := by
  have hbranch := quiet_reschedule (z := z) (c := c) task
  intro call hcall
  rw [processCompletion, List.mem_append, List.mem_cons] at hcall
  rcases hcall with hcall | rfl | hcall
  · exact quiet_removeNotification task call hcall
  · exact ⟨rfl, rfl⟩
  · cases hnext : nextTimeOf z c task with
    | error fault =>
        rw [hnext, List.mem_singleton] at hcall
        rw [hcall]
        exact ⟨rfl, rfl⟩
    | ok next =>
        simp only [hnext] at hcall
        by_cases hpaid : giveMoney z c task = true
        · rw [if_pos hpaid, List.mem_cons, List.mem_append, List.mem_singleton] at hcall
          rcases hcall with rfl | hcall | rfl
          · exact ⟨rfl, rfl⟩
          · exact hbranch _ next call hcall
          · exact ⟨rfl, rfl⟩
        · rw [if_neg hpaid, List.mem_append, List.mem_singleton] at hcall
          rcases hcall with hcall | rfl
          · exact hbranch _ next call hcall
          · exact ⟨rfl, rfl⟩

variable (key) in
/-- The repeating branch leaves the balance the dialog will show. -/
theorem perform_reschedule_currMoney (task : AppTask) (streak : ℤ) (next : Option DateTime)
    (w : World κ) :
    (perform (exec key z c) (reschedule z c task streak next) w).1.currMoney = w.currMoney := by
  apply view_perform World.currMoney
  intro call hcall s s' hexec
  rcases mem_reschedule_cases hcall with ⟨t, -, rfl⟩ | rfl | rfl
  · simp only [exec] at hexec
    split at hexec <;> cases hexec
    rfl
  · cases hexec
    rfl
  · obtain ⟨pending, rfl⟩ := pending_of_addNotification hexec
    rfl

variable (key) in
/-- **A completion tells the home screen what it credits**, and nothing when
nothing is credited. -/
theorem completion_home (hw : w.tasks docId = some d) (hd : d.WellFormed) :
    (perform (exec key z c) (completion z c (.fromDS docId d)) w).1.fishMoney
      = if giveMoney z c (.fromDS docId d) then w.money + moneyAdded (.fromDS docId d)
        else w.fishMoney := by
  have ht : (AppTask.fromDS docId d).WellFormed := hd.read docId
  generalize htask : AppTask.fromDS docId d = task at ht
  have hid : task.id = docId := by rw [← htask]; rfl
  obtain ⟨next, hnext⟩ := nextTimeOf_ok (z := z) (c := c) ht
  have hstored : w.tasks task.id = some d := hid ▸ hw
  have hbegun : (w.begun key z c task d).tasks task.id = some (TaskUpdate.completed.apply d) := by
    simp
  rw [completion_of_ok hnext, perform_begin key z c hstored ht]
  by_cases hpaid : giveMoney z c task = true
  · have hs := ht.streak_nonneg
    obtain ⟨v, hbranch, -, -, -⟩ := perform_reschedule key z c
      (w := { w.begun key z c task d with currMoney := (w.begun key z c task d).money })
      hbegun hd.completed (s := task.streak + 1) (by omega) next
    -- the balance was read before the branch
    have hcurr : v.currMoney = w.money := by
      have hkeep := perform_reschedule_currMoney key (z := z) (c := c) task
        (task.streak + 1) next
        { w.begun key z c task d with currMoney := (w.begun key z c task d).money }
      rw [hbranch] at hkeep
      exact hkeep
    rw [if_pos hpaid, if_pos hpaid, List.cons_append, perform_cons_ok _ rfl, List.append_assoc,
      perform_append _ hbranch]
    exact (congrArg (moneyAdded task + ·) hcurr).trans (add_comm _ _)
  · rw [if_neg hpaid, if_neg hpaid]
    have hquiet : ∀ call ∈ reschedule z c task task.streak next ++ [.showDialog none],
        Quiet call := by
      intro call hcall
      rcases List.mem_append.mp hcall with hcall | hcall
      · exact quiet_reschedule task _ next call hcall
      · rw [List.mem_singleton.mp hcall]
        exact ⟨rfl, rfl⟩
    exact (perform_quiet hquiet _).2

variable (key) in
/-- What an operation does to the two balances. -/
theorem performOp_balance (hw : w.tasks docId = some d) (hd : d.WellFormed) (op : TaskOp) :
    (op = .complete ∧ 0 < coins z c (.fromDS docId d)
        ∧ (performOp key z docId (c, op) w).money = w.money + coins z c (.fromDS docId d)
        ∧ (performOp key z docId (c, op) w).fishMoney = w.money + coins z c (.fromDS docId d))
      ∨ (op = .complete → coins z c (.fromDS docId d) = 0)
        ∧ (performOp key z docId (c, op) w).money = w.money
        ∧ (performOp key z docId (c, op) w).fishMoney = w.fishMoney := by
  have ht : (AppTask.fromDS docId d).WellFormed := hd.read docId
  have hfresh : w.fresh.tasks docId = some d := hw
  unfold performOp
  simp only [hw]
  cases op with
  | complete =>
      obtain ⟨next, w', -, hp, -, hmoney, -⟩ := completion_spec key z c hfresh hd ht
      have hhome := completion_home key (z := z) (c := c) hfresh hd
      rw [hp] at hhome
      simp only [TaskOp.calls, hp]
      by_cases hpaid : giveMoney z c (.fromDS docId d) = true
      · have hcoins : coins z c (.fromDS docId d) = moneyAdded (.fromDS docId d) := if_pos hpaid
        rw [if_pos hpaid, ← hcoins] at hhome
        exact .inl ⟨trivial, hcoins ▸ moneyAdded_pos ht, hmoney, hhome⟩
      · have hcoins : coins z c (.fromDS docId d) = 0 := if_neg hpaid
        rw [if_neg hpaid] at hhome
        rw [hcoins, add_zero] at hmoney
        exact .inr ⟨fun _ => hcoins, hmoney, hhome⟩
  | edit data =>
      exact .inr ⟨fun h => (by cases h),
        perform_quiet (quiet_editTask (.fromDS docId d) data) w.fresh⟩
  | delete =>
      have hquiet : ∀ call ∈ deleteTask z c (.fromDS docId d), Quiet call := by
        intro call hcall
        rcases List.mem_cons.mp hcall with rfl | hcall
        · exact ⟨rfl, rfl⟩
        · exact quiet_removeNotification _ call hcall
      exact .inr ⟨fun h => (by cases h), perform_quiet hquiet w.fresh⟩
  | deleteFromDetails =>
      exact .inr ⟨fun h => (by cases h), perform_quiet (quiet_removeNotification _) w.fresh⟩

variable (key) in
/-- What an operation credits. -/
theorem performOp_money (hw : w.tasks docId = some d) (hd : d.WellFormed) (op : TaskOp) :
    (performOp key z docId (c, op) w).money = w.money +
      (match op with
        | .complete => coins z c (.fromDS docId d)
        | _ => 0) := by
  rcases performOp_balance key (z := z) (c := c) hw hd op with
    ⟨rfl, -, hmoney, -⟩ | ⟨hnone, hmoney, -⟩
  · exact hmoney
  · rw [hmoney]
    cases op with
    | complete => simp [hnone rfl]
    | edit | delete | deleteFromDetails => simp

/-- A call that writes well-formed documents only. -/
def Keeps (call : Call) : Prop :=
  (∀ id data, call = .create id data → data.WellFormed)
    ∧ ∀ id update, call = .updateData id update →
      ∀ d : TaskDoc, d.WellFormed → (update.apply d).WellFormed

theorem perform_wellFormed {calls : List Call} (h : ∀ call ∈ calls, Keeps call)
    (hw : w.WellFormed) : (perform (exec key z c) calls w).1.WellFormed := by
  have hkeep : ∀ call ∈ calls, ∀ s s' : World κ, s.WellFormed → exec key z c call s = .ok s' →
      s'.WellFormed := by
    intro call hcall s s' hs hexec id d hd
    rcases exec_document hexec id with hsame | hgone | ⟨data, rfl, hnew⟩
      | ⟨update, d', rfl, hd', hnew⟩
    · exact hs id d (hsame ▸ hd)
    · rw [hgone] at hd
      cases hd
    · obtain rfl : data = d := Option.some.inj (hnew.symm.trans hd)
      exact (h _ hcall).1 id data rfl
    · obtain rfl : update.apply d' = d := Option.some.inj (hnew.symm.trans hd)
      exact (h _ hcall).2 id update rfl d' (hs id d' hd')
  exact perform_invariant hkeep hw

theorem keeps_of_writes {call : Call} (h : call.writes = false) : Keeps call := by
  refine ⟨fun id data heq => ?_, fun id update heq => ?_⟩
  · rw [heq] at h
    cases h
  · rw [heq] at h
    cases h

theorem keeps_createTask {data : TaskDoc} (hdata : data.WellFormed) :
    ∀ call ∈ createTask z c docId data, Keeps call := by
  intro call hcall
  rcases List.mem_cons.mp hcall with rfl | hcall
  · refine ⟨fun id data' heq => ?_, fun id update heq => by cases heq⟩
    cases heq
    exact hdata
  · exact keeps_of_writes (addNotification_writes z c _ call hcall)

theorem keeps_processCompletion {task : AppTask} (ht : task.WellFormed) :
    ∀ call ∈ processCompletion z c task, Keeps call := by
  obtain ⟨next, hnext⟩ := nextTimeOf_ok (z := z) (c := c) ht
  have hbranch : ∀ streak, 0 ≤ streak → ∀ call ∈ reschedule z c task streak next, Keeps call := by
    intro streak hstreak call hcall
    rcases mem_reschedule hcall with ⟨t, -, rfl⟩ | hwrites
    · refine ⟨fun id data heq => (by cases heq), fun id update heq d hd => ?_⟩
      cases heq
      exact hd.reschedule _ hstreak _ _
    · exact keeps_of_writes hwrites
  have hs := ht.streak_nonneg
  intro call hcall
  rw [processCompletion, List.mem_append, List.mem_cons] at hcall
  simp only [hnext] at hcall
  rcases hcall with hcall | rfl | hcall
  · exact keeps_of_writes (removeNotification_writes z c task call hcall)
  · refine ⟨fun id data heq => (by cases heq), fun id update heq d hd => ?_⟩
    cases heq
    exact hd.completed
  · by_cases hpaid : giveMoney z c task = true
    · rw [if_pos hpaid, List.mem_cons, List.mem_append, List.mem_singleton] at hcall
      rcases hcall with rfl | hcall | rfl
      · exact keeps_of_writes rfl
      · exact hbranch _ (by omega) call hcall
      · exact keeps_of_writes rfl
    · rw [if_neg hpaid, List.mem_append, List.mem_singleton] at hcall
      rcases hcall with hcall | rfl
      · exact hbranch _ hs call hcall
      · exact keeps_of_writes rfl

theorem performOp_wellFormed (hw : w.WellFormed) (op : TaskOp) :
    (performOp key z docId (c, op) w).WellFormed := by
  cases hd : w.tasks docId with
  | none =>
      unfold performOp
      rw [hd]
      exact hw
  | some d =>
      obtain ⟨next, -, htasks, -⟩ := performOp_spec key z (c, op) hd (hw docId d hd)
      have ht : (AppTask.fromDS docId d).WellFormed := (hw docId d hd).read docId
      exact hw.update htasks fun d' hd' => TaskOp.doc_wellFormed z c ht (hw docId d hd) hd'

end Tasks

/-! ## The shop -/

/-- The balance a screen keeps, if it keeps one. -/
def Screen.fishMoney : Screen → Option ℤ
  | .shop screen => screen.shop.map (·.fishMoney)
  | .countDown s => some s.fishMoney
  | .countUp x => some x.screen.fishMoney
  | _ => none

/-- What a tap does to what the app keeps: nothing, or it buys. A shop that is
shown was shown before, or has just read the balance. -/
theorem shop_cases {s s' : Shop.App} {tap : Shop.Tap} (h : Shop.step s tap = some s') :
    (s'.doc = s.doc ∧ s'.fishMoney = s.fishMoney ∧ s'.charges = s.charges
        ∧ ∀ shop, s'.screen.shop = some shop →
          s.screen.shop = some shop ∨ shop.fishMoney = s.doc.money)
      ∨ ∃ shop page, s.screen.shop = some shop
        ∧ s.doc.hasEnoughMoney page.marLife.price = true ∧ s' = Shop.bought shop page s := by
  obtain ⟨doc, fishMoney, screen, charges⟩ := s
  cases tap with
  | enterShop =>
      cases screen with
      | home =>
          cases h
          -- `getMoney` as the shop opens
          refine .inl ⟨rfl, rfl, rfl, fun shop hshop => ?_⟩
          cases hshop
          exact .inr rfl
      | _ => cases h
  | openDetails index =>
      cases screen with
      | grid shop =>
          obtain ⟨marLife, -, rfl⟩ := Option.map_eq_some_iff.mp h
          exact .inl ⟨rfl, rfl, rfl, fun shop hshop => .inl hshop⟩
      | _ => cases h
  | buyNow =>
      cases screen with
      | details shop page =>
          rw [Shop.step, Option.some.injEq, Shop.purchase] at h
          by_cases hbought : page.isBought = true
          · -- what the page marks as bought is not sold again
            rw [if_pos hbought] at h
            subst h
            exact .inl ⟨rfl, rfl, rfl, fun shop hshop => .inl hshop⟩
          · rw [if_neg hbought] at h
            by_cases henough : doc.hasEnoughMoney page.marLife.price = true
            · rw [if_pos henough] at h
              exact .inr ⟨shop, page, rfl, henough, h.symm⟩
            · rw [if_neg henough] at h
              subst h
              exact .inl ⟨rfl, rfl, rfl, fun shop hshop => .inl hshop⟩
      | _ => cases h
  | ok =>
      cases screen with
      | dialog shop page message =>
          cases h
          exact .inl ⟨rfl, rfl, rfl, fun shop hshop => .inl hshop⟩
      | _ => cases h
  | outside =>
      cases screen with
      | dialog shop page message =>
          cases h
          exact .inl ⟨rfl, rfl, rfl, fun shop hshop => .inl hshop⟩
      | _ => cases h
  | back =>
      cases screen with
      | home => cases h
      | grid shop =>
          cases h
          exact .inl ⟨rfl, rfl, rfl, fun shop hshop => (by cases hshop)⟩
      | details shop page =>
          cases h
          exact .inl ⟨rfl, rfl, rfl, fun shop hshop => .inl hshop⟩
      | dialog shop page message =>
          cases h
          exact .inl ⟨rfl, rfl, rfl, fun shop hshop => .inl hshop⟩

/-! ## The timers -/

/-- What the rest of the app sees of a timer. -/
structure Till where
  paid : List Payout
  fishMoney : ℤ
  completing : Bool

/-- A timer pays, or tells the home screen what it has, or does neither. -/
inductive Till.Step (t : Till) : Till → Option ℤ → Prop
  | pays (p : Payout) (hp : 0 < p.moneyEarned) (h : t.completing = false) :
      Step t ⟨t.paid ++ [p], t.fishMoney + p.moneyEarned, true⟩ none
  | tells (h : t.completing = true) :
      Step t ⟨t.paid, t.fishMoney, false⟩ (some t.fishMoney)
  | neither (h : t.completing = false) : Step t ⟨t.paid, t.fishMoney, false⟩ none

def till (paid : List Payout) (fishMoney : ℤ) (dialog : Option CountDown.Dialog) : Till :=
  ⟨paid, fishMoney, decide (dialog = some .completeTask)⟩

def countDownTill (s : CountDown.Screen) : Till := till s.paid s.fishMoney s.dialog

def countUpTill (s : CountUp.Screen) : Till := till s.paid s.fishMoney s.dialog

section

variable {paid : List Payout} {fishMoney : ℤ} {dialog dialog' : Option CountDown.Dialog}

theorem till_of_ne (h : dialog ≠ some .completeTask) :
    till paid fishMoney dialog = ⟨paid, fishMoney, false⟩ := by
  rw [till, decide_eq_false h]

/-- A step other than the button that leaves the dialog of a completed session closed. -/
theorem till_neither {back : Prop} [Decidable back] (hback : ¬ back) {homeMoney : ℤ}
    (h : dialog ≠ some .completeTask) (h' : dialog' ≠ some .completeTask) :
    (till paid fishMoney dialog).Step (till paid fishMoney dialog')
      (if back then some homeMoney else none) := by
  rw [if_neg hback, till_of_ne h, till_of_ne h']
  exact .neither rfl

end

/-- A session of the countdown has some time to count, and is cancelled before
it is over. -/
structure Running (s : CountDown.Screen) : Prop where
  started : s.hvStarted = true → 0 < s.initialDur
  cancelling : s.dialog = some .cancelTask → 0 < s.duration

theorem running_initial (money : ℤ) : Running (CountDown.initial money) := by
  constructor <;> simp [CountDown.initial]

theorem total_pos {seconds : ℤ} (h : 0 < seconds) : 0 < (timeString seconds).total := by
  have hne : (timeString seconds).total ≠ 0 := fun hzero =>
    absurd ((total_eq_zero_iff h.le).mp hzero) (by omega)
  have hnonneg := total_nonneg h.le
  omega

theorem Running.step {s s' : CountDown.Screen} {a : CountDown.Action} (h : CountDown.Inv s)
    (hrun : Running s) (hstep : CountDown.step s a = some s') : Running s' := by
  rcases CountDown.step_cases hstep with ⟨⟨hidle, hnone⟩, d, rfl, -⟩ | ⟨hidle, hten, now, -, rfl⟩
    | ⟨-, -, hstarted, now, -, rfl⟩ | ⟨htimer, -, now, -, rfl⟩ | ⟨hstarted, -, hne, -, rfl⟩
    | ⟨hdialog, now, -, rfl⟩ | ⟨-, -, rfl⟩ | ⟨-, -, rfl⟩
  · exact ⟨hrun.started, fun hc => absurd hc (by simp [hnone])⟩
  · refine ⟨fun _ => ?_, fun hc => ?_⟩
    · show 0 < s.duration
      omega
    · exact absurd hc (by simp [CountDown.Screen.startTimer, hidle.2])
  · exact ⟨hrun.started, fun hc => absurd hc (by simp [CountDown.Screen.completeTaskDialog])⟩
  · refine ⟨hrun.started, fun hc => ?_⟩
    exact absurd hc (by simp [(h.active htimer).2])
  · -- the Cancel button is there only while something is left
    refine ⟨hrun.started, fun _ => ?_⟩
    have hnonneg := h.duration_nonneg
    show 0 < s.duration
    omega
  · exact ⟨fun _ => hrun.cancelling hdialog, fun hc => absurd hc (by simp)⟩
  · refine ⟨fun hc => ?_, fun hc => absurd hc (by simp)⟩
    exact absurd hc (by simp [CountDown.Screen.stopTimer])
  · refine ⟨fun hc => ?_, fun hc => absurd hc (by simp)⟩
    exact absurd hc (by simp [CountDown.Screen.stopTimer])

theorem countDown_till {s s' : CountDown.Screen} {a : CountDown.Action} (h : CountDown.Inv s)
    (hrun : Running s) (hstep : CountDown.step s a = some s') :
    (countDownTill s).Step (countDownTill s') (if a = .back then some s'.homeMoney else none) := by
  unfold countDownTill
  rcases CountDown.step_cases hstep with ⟨hidle, d, rfl, hslider⟩ | ⟨hidle, -, now, rfl, rfl⟩
    | ⟨htimer, -, hstarted, now, rfl, rfl⟩ | ⟨htimer, -, now, rfl, rfl⟩ | ⟨-, hnone, -, rfl, rfl⟩
    | ⟨hdialog, now, rfl, rfl⟩ | ⟨hdialog, rfl, rfl⟩ | ⟨hdialog, rfl, rfl⟩
  · refine till_neither ?_ (by simp [hidle.2]) (by simp [hidle.2])
    rcases hslider with ⟨n, rfl, -⟩ | ⟨n, rfl, -⟩ | ⟨n, rfl, -⟩ <;> simp
  · exact till_neither (by simp) (by simp [hidle.2])
      (by simp [CountDown.Screen.startTimer, hidle.2])
  · -- the last tick: the dialog opens and pays
    rw [if_neg (by simp), till_of_ne (by simp [(h.active htimer).2])]
    exact .pays ⟨_, now, s.startTime, s.endTime⟩ (total_pos (hrun.started hstarted)) rfl
  · have hnone := (h.active htimer).2
    exact till_neither (by simp) (by simp [hnone]) (by simp [hnone])
  · exact till_neither (by simp) (by simp [hnone]) (by simp)
  · exact till_neither (by simp) (by simp [hdialog]) (by simp)
  · exact till_neither (by simp) (by simp [hdialog]) (by simp)
  · rw [if_pos rfl, hdialog]
    exact .tells rfl

/-- The count-up timer does not run behind a dialog, and no dialog is open
outside a session. -/
structure Still (s : CountUp.Screen) : Prop where
  active : s.timer = .active → s.dialog = none
  started : s.dialog ≠ none → s.hvStarted = true

theorem still_initial {money now : ℤ} : Still (CountUp.initial money now).screen :=
  ⟨fun hactive => absurd hactive (by simp [CountUp.initial]), fun hopen => absurd rfl hopen⟩

theorem Still.act {now : DateTime} {s s' : CountUp.Screen} {a : CountUp.Action} (h : Still s)
    (hact : CountUp.act now s a = some s') : Still s' := by
  rcases CountUp.act_cases hact with ⟨-, -, hnone, rfl⟩ | ⟨-, -, rfl⟩ | ⟨-, hs, -, -, rfl⟩
    | ⟨-, hs, -, -, rfl⟩ | ⟨-, -, rfl⟩ | ⟨-, -, rfl⟩ | ⟨-, -, rfl⟩
  · exact ⟨fun _ => hnone, fun _ => rfl⟩
  · exact ⟨h.active, h.started⟩
  · exact ⟨fun hactive => absurd hactive (by simp), fun _ => hs⟩
  · exact ⟨fun hactive => absurd hactive (by simp), fun _ => hs⟩
  · exact ⟨fun _ => rfl, fun hc => absurd rfl hc⟩
  · exact ⟨fun _ => rfl, fun hc => absurd rfl hc⟩
  · exact ⟨fun _ => rfl, fun hc => absurd rfl hc⟩

theorem countUp_till {now : DateTime} {s s' : CountUp.Screen} {a : CountUp.Action}
    (h : Still s) (hact : CountUp.act now s a = some s') :
    (countUpTill s).Step (countUpTill s') (if a = .back then some s'.homeMoney else none) := by
  unfold countUpTill
  rcases CountUp.act_cases hact with ⟨rfl, -, hnone, rfl⟩ | ⟨rfl, htimer, rfl⟩
    | ⟨rfl, -, hnone, hten, rfl⟩ | ⟨rfl, -, hnone, -, rfl⟩ | ⟨rfl, hdialog, rfl⟩
    | ⟨rfl, hdialog, rfl⟩ | ⟨rfl, hdialog, rfl⟩
  · exact till_neither (by simp) (by simp [hnone]) (by simp [CountUp.Screen.startTimer, hnone])
  · have hnone := h.active htimer
    exact till_neither (by simp) (by simp [hnone]) (by simp [CountUp.Screen.setCountUp, hnone])
  · -- ten seconds at least, so the dialog pays something
    rw [if_neg (by simp), till_of_ne (by simp [hnone])]
    exact .pays ⟨_, now, s.startTime, some now⟩ (total_pos (by omega)) rfl
  · exact till_neither (by simp) (by simp [hnone]) (by simp)
  · exact till_neither (by simp) (by simp [hdialog]) (by simp)
  · exact till_neither (by simp) (by simp [hdialog]) (by simp)
  · rw [if_pos rfl, hdialog]
    exact .tells rfl

/-! ## The focus record -/

theorem totalTime_filter {docs : Collection} (h : (docs.map (·.1)).Nodup) (date : FocusTime.Date) :
    totalTime (docs.filter (·.1 ≠ date))
      = totalTime docs - FocusTime.getTimeOfTheDay docs date := by
  unfold totalTime FocusTime.getTimeOfTheDay
  induction docs with
  | nil => rfl
  | cons p docs ih =>
      rw [List.map_cons, List.nodup_cons] at h
      have hrest := ih h.2
      rw [FocusTime.lookup_cons, List.map_cons, List.sum_cons]
      by_cases hdate : p.1 = date
      · -- the ids are different, so this is the only document of the date
        have hnone : docs.lookup date = none := by
          apply List.lookup_eq_none_iff.mpr
          intro q hq
          have hne : q.1 ≠ p.1 := fun heq => h.1 (heq ▸ List.mem_map_of_mem hq)
          simp only [bne_iff_ne, ne_eq]
          rw [← hdate]
          exact Ne.symm hne
        rw [List.filter_cons_of_neg (by simp [hdate]), if_pos hdate.symm, hrest, hnone]
        simp
      · rw [List.filter_cons_of_pos (by simp [hdate]), if_neg (Ne.symm hdate), List.map_cons,
          List.sum_cons, hrest]
        omega

theorem totalTime_set {docs : Collection} (h : (docs.map (·.1)).Nodup) (date : FocusTime.Date)
    (doc : FocusTime.FocusDoc) : totalTime (docs.set date doc)
      = totalTime docs - FocusTime.getTimeOfTheDay docs date + doc.totalTime := by
  have hset : totalTime (docs.set date doc)
      = doc.totalTime + totalTime (docs.filter (·.1 ≠ date)) := by
    unfold totalTime Collection.set
    rw [List.map_cons, List.sum_cons]
  rw [hset, totalTime_filter h]
  omega

theorem nodup_set {docs : Collection} (h : (docs.map (·.1)).Nodup) (date : FocusTime.Date)
    (doc : FocusTime.FocusDoc) : ((docs.set date doc).map (·.1)).Nodup := by
  rw [Collection.set, List.map_cons, List.nodup_cons]
  refine ⟨fun hmem => ?_, ?_⟩
  · obtain ⟨p, hp, hdate⟩ := List.mem_map.mp hmem
    have hne := (List.mem_filter.mp hp).2
    exact absurd hdate (by simpa using hne)
  · exact (List.filter_sublist.map _).nodup h

/-- A call adds its duration to the time of its day, and so to that of all days. -/
theorem save_books {docs : Collection} (h : (docs.map (·.1)).Nodup) (call : FocusTime.Call) :
    totalTime (saveFocusTime z docs call) = totalTime docs + call.duration
      ∧ ((saveFocusTime z docs call).map (·.1)).Nodup := by
  cases hdoc : docs.lookup (FocusTime.formatDate z call.caller) with
  | some doc =>
      rw [FocusTime.saveFocusTime_of_some hdoc]
      refine ⟨?_, nodup_set h _ _⟩
      rw [totalTime_set h, FocusTime.getTimeOfTheDay, hdoc]
      simp only [FocusTime.Call.update, Option.map_some, Option.getD_some]
      omega
  | none =>
      rw [FocusTime.saveFocusTime_of_none hdoc]
      refine ⟨?_, nodup_set h _ _⟩
      rw [totalTime_set h, FocusTime.getTimeOfTheDay, hdoc]
      simp only [FocusTime.Call.newDoc, Option.map_none, Option.getD_none]
      omega

/-! ## One event -/

def Screen.Sound : Screen → Prop
  | .countDown s => CountDown.Inv s ∧ Running s
  | .countUp x => Still x.screen
  | _ => True

theorem popped_spec {screen screen' : Screen} (h : screen.Sound)
    (hpopped : screen.popped = some screen') :
    screen'.Sound ∧ (∀ m, screen'.fishMoney = some m → screen.fishMoney = some m)
      ∧ screen'.completing = false := by
  cases screen with
  | home => cases hpopped
  | shop screen => cases hpopped
  | tasks =>
      cases hpopped
      exact ⟨trivial, fun m hm => (by cases hm), rfl⟩
  | countDown s =>
      simp only [Screen.popped] at hpopped
      by_cases hnone : s.dialog = none
      · rw [if_pos hnone] at hpopped
        cases hpopped
        exact ⟨trivial, fun m hm => (by cases hm), rfl⟩
      · -- only the dialog goes, the timer stays as it was
        rw [if_neg hnone] at hpopped
        cases hpopped
        obtain ⟨⟨hd, hdle, hi, hile, hdi, hactive, -, -⟩, hrun⟩ := h
        refine ⟨⟨⟨hd, hdle, hi, hile, hdi, fun ht => ⟨(hactive ht).1, rfl⟩, ?_, ?_⟩,
          hrun.started, ?_⟩, fun m hm => hm, rfl⟩
        · exact fun hc => absurd hc (by simp)
        · exact fun hc => absurd hc (by simp)
        · exact fun hc => absurd hc (by simp)
  | countUp x =>
      simp only [Screen.popped] at hpopped
      by_cases hnone : x.screen.dialog = none
      · rw [if_pos hnone] at hpopped
        cases hpopped
        exact ⟨trivial, fun m hm => (by cases hm), rfl⟩
      · rw [if_neg hnone] at hpopped
        cases hpopped
        exact ⟨⟨fun _ => rfl, fun hc => absurd rfl hc⟩, fun m hm => hm, rfl⟩

/-- The screens, and what they are a view of. -/
structure Consistent (a : App κ) : Prop where
  wellFormed : a.world.WellFormed
  keys : (a.focus.map (·.1)).Nodup
  sound : a.screen.Sound
  synced : ∀ m, a.screen.fishMoney = some m → m = a.world.money

structure Inv (a : App κ) : Prop extends Consistent a where
  figures : a.figures.Inv

section Step

variable {key} {z} {a a' : App κ} {e : Event}

omit [DecidableEq κ] in
/-- Another screen is shown. -/
theorem shown (h : Consistent a) {screen : Screen} (hsound : screen.Sound)
    (hsynced : ∀ m, screen.fishMoney = some m → m = a.world.money)
    (hclosed : a.screen.completing = false) (hclosed' : screen.completing = false) :
    Consistent { a with screen := screen }
      ∧ a.figures.Change 0 { a with screen := screen }.figures := by
  refine ⟨⟨h.wellFormed, h.keys, hsound, hsynced⟩, ?_⟩
  have hsame : { a with screen := screen }.figures = a.figures := by
    simp only [App.figures, hclosed, hclosed']
  rw [hsame]
  exact .quiet hclosed

omit [DecidableEq κ] in
/-- A handler of the tasks' screens runs. -/
theorem worked (h : Consistent a) (hscreen : a.screen = .tasks) {w : World κ} (hw : w.WellFormed)
    {n : ℤ} (hmoney : (0 < n ∧ w.money = a.world.money + n ∧ w.fishMoney = a.world.money + n)
      ∨ n = 0 ∧ w.money = a.world.money ∧ w.fishMoney = a.world.fishMoney) :
    Consistent { a with world := w } ∧ a.figures.Change n { a with world := w }.figures := by
  have hclosed : a.figures.completing = false := by
    simp only [App.figures, hscreen, Screen.completing]
  refine ⟨⟨hw, h.keys, h.sound, fun m hm => ?_⟩, ?_⟩
  · simp only [hscreen, Screen.fishMoney] at hm
    cases hm
  · rcases hmoney with ⟨hpos, hmoney, hhome⟩ | ⟨rfl, hmoney, hhome⟩
    · have hnew : { a with world := w }.figures
          = { a.figures with money := a.figures.money + n, home := a.figures.money + n } := by
        simp only [App.figures, hmoney, hhome]
      rw [hnew]
      exact .earned n hpos hclosed
    · have hsame : { a with world := w }.figures = a.figures := by
        simp only [App.figures, hmoney, hhome]
      rw [hsame]
      exact .quiet hclosed

omit [DecidableEq κ] in
theorem ofShop_screen (a : App κ) (s : Shop.App) :
    (a.ofShop s).screen.Sound ∧ (a.ofShop s).screen.completing = false
      ∧ (a.ofShop s).screen.fishMoney = s.screen.shop.map (·.fishMoney) := by
  unfold App.ofShop
  cases s.screen <;> exact ⟨trivial, rfl, rfl⟩

omit [DecidableEq κ] in
theorem ofShop_figures (a : App κ) (s : Shop.App) :
    (a.ofShop s).figures = { a.figures with
      money := s.doc.money
      home := s.fishMoney
      charged := (s.charges.map (·.marLife.price)).sum
      completing := false } := by
  simp only [App.figures, (ofShop_screen a s).2.1]
  rfl

theorem toShop_screen {screen : Screen} {shop : Shop.Screen} (h : screen.toShop = some shop) :
    screen.completing = false ∧ screen.fishMoney = shop.shop.map (·.fishMoney) := by
  cases screen with
  | home =>
      cases h
      exact ⟨rfl, rfl⟩
  | shop screen =>
      cases h
      exact ⟨rfl, rfl⟩
  | _ => cases h

omit [DecidableEq κ] in
/-- A tap in the shop. -/
theorem shopped (h : Consistent a) {screen : Shop.Screen} (hscreen : a.screen.toShop = some screen)
    {tap : Shop.Tap} {s : Shop.App} (hstep : Shop.step (a.toShop screen) tap = some s) :
    Consistent (a.ofShop s) ∧ a.figures.Change 0 (a.ofShop s).figures := by
  obtain ⟨hclosed, hmoney⟩ := toShop_screen hscreen
  obtain ⟨hsound, -, hmoney'⟩ := ofShop_screen a s
  have hsynced : ∀ shop, screen.shop = some shop → shop.fishMoney = a.world.money := by
    intro shop hshop
    exact h.synced _ (by rw [hmoney, hshop]; rfl)
  rw [ofShop_figures]
  rcases shop_cases hstep with ⟨hdoc, hhome, hcharges, hshop⟩ | ⟨shop, page, hshop, henough, rfl⟩
  · refine ⟨⟨h.wellFormed, h.keys, hsound, fun m hm => ?_⟩, ?_⟩
    · rw [hmoney'] at hm
      obtain ⟨shop, hs, rfl⟩ := Option.map_eq_some_iff.mp hm
      change shop.fishMoney = s.doc.money
      rw [hdoc]
      rcases hshop shop hs with hold | hread
      · exact hsynced shop hold
      · exact hread
    · rw [hdoc, hhome, hcharges, ← hclosed]
      exact .quiet hclosed
  · have hbalance := hsynced shop hshop
    refine ⟨⟨h.wellFormed, h.keys, hsound, fun m hm => ?_⟩, ?_⟩
    · rw [hmoney'] at hm
      cases hm
      change shop.fishMoney - page.marLife.price = a.world.money + -page.marLife.price
      omega
    · have hprice := UserDoc.hasEnoughMoney_iff.mp henough
      have hcharged : ((Shop.bought shop page (a.toShop screen)).charges.map
          (·.marLife.price)).sum = a.figures.charged + page.marLife.price := by
        simp [Shop.bought, App.toShop, App.figures]
      have hhome : (Shop.bought shop page (a.toShop screen)).fishMoney
          = a.figures.money - page.marLife.price := congrArg (· - page.marLife.price) hbalance
      have hstored : (Shop.bought shop page (a.toShop screen)).doc.money
          = a.figures.money - page.marLife.price := (sub_eq_add_neg _ _).symm
      rw [hcharged, hhome, hstored, ← hclosed]
      exact .bought page.marLife.price hprice hclosed

theorem focusCall_duration {p : Payout} {readings : Readings} {call : FocusTime.Call}
    (h : focusCall p readings = some call) : call.duration = p.moneyEarned := by
  unfold focusCall at h
  split at h
  · split at h
    · cases h
      rfl
    · cases h
  · cases h

omit [DecidableEq κ] in
/-- A timer goes on, `t` being what is seen of it. -/
theorem timed (h : Consistent a) {t t' : Till} {told : Option ℤ} (hstep : t.Step t' told)
    (hmoney : a.screen.fishMoney = some t.fishMoney) (hopen : a.screen.completing = t.completing)
    {readings : Readings} {a₁ : App κ} (hsettle : a.settle z readings t.paid t'.paid = some a₁)
    {screen : Screen} (hsound : screen.Sound) (hmoney' : screen.fishMoney = some t'.fishMoney)
    (hopen' : screen.completing = t'.completing) :
    Consistent { a₁.tell told with screen := screen }
      ∧ a.figures.Change 0 { a₁.tell told with screen := screen }.figures := by
  have hbalance : t.fishMoney = a.world.money := h.synced _ hmoney
  cases hstep with
  | pays p hp hclosed =>
      have hnew : (t.paid ++ [p]).drop t.paid.length = [p] := List.drop_left
      simp only [App.settle, hnew, List.head?_cons] at hsettle
      obtain ⟨call, hcall, rfl⟩ := Option.map_eq_some_iff.mp hsettle
      have hduration := focusCall_duration hcall
      obtain ⟨htotal, hkeys⟩ := save_books (z := z) h.keys call
      refine ⟨⟨h.wellFormed, hkeys, hsound, fun m hm => ?_⟩, ?_⟩
      · have hm' : t.fishMoney + p.moneyEarned = m := Option.some.inj (hmoney'.symm.trans hm)
        simp only [App.tell, App.pay]
        omega
      · have hfigures : { (a.pay z call).tell none with screen := screen }.figures
            = { a.figures with
                money := a.figures.money + p.moneyEarned
                focused := a.figures.focused + p.moneyEarned
                completing := true } := by
          simp only [App.figures, App.tell, App.pay, htotal, hduration, hopen', Option.getD_none]
        rw [hfigures]
        exact .paid p.moneyEarned hp (hopen.trans hclosed)
  | tells hclosed =>
      have hnone : t.paid.drop t.paid.length = [] := List.drop_length
      simp only [App.settle, hnone, List.head?_nil, Option.some.injEq] at hsettle
      subst hsettle
      refine ⟨⟨h.wellFormed, h.keys, hsound, fun m hm => ?_⟩, ?_⟩
      · have hm' : t.fishMoney = m := Option.some.inj (hmoney'.symm.trans hm)
        simp only [App.tell]
        omega
      · have hfigures : { a.tell (some t.fishMoney) with screen := screen }.figures
            = { a.figures with home := a.figures.money, completing := false } := by
          simp only [App.figures, App.tell, hopen', hbalance, Option.getD_some]
        rw [hfigures]
        exact .told (hopen.trans hclosed)
  | neither hclosed =>
      have hnone : t.paid.drop t.paid.length = [] := List.drop_length
      simp only [App.settle, hnone, List.head?_nil, Option.some.injEq] at hsettle
      subst hsettle
      have hsynced : ∀ m, screen.fishMoney = some m → m = a.world.money := by
        intro m hm
        have hm' : t.fishMoney = m := Option.some.inj (hmoney'.symm.trans hm)
        omega
      exact shown h hsound hsynced (hopen.trans hclosed) hopen'

/-- **What an event does** to the figures: all but one of the cases are changes,
and that one forgets to tell the home screen. -/
theorem step_spec (h : Consistent a) (hstep : step key z a e = some a') :
    Consistent a' ∧ (a.figures.Change (earned z a e) a'.figures ∧ ¬ Lost a e
      ∨ Lost a e ∧ earned z a e = 0
        ∧ a'.figures = { a.figures with completing := false }) := by
  -- every event but the system's back button is a change
  have hchange : Consistent a' ∧ a.figures.Change (earned z a e) a'.figures → e ≠ .systemBack →
      Consistent a' ∧ (a.figures.Change (earned z a e) a'.figures ∧ ¬ Lost a e
        ∨ Lost a e ∧ earned z a e = 0 ∧ a'.figures = { a.figures with completing := false }) :=
    fun hc hne => ⟨hc.1, .inl ⟨hc.2, fun hlost => hne hlost.1⟩⟩
  cases e with
  | openTasks =>
      simp only [step] at hstep
      split at hstep
      · next hscreen =>
        cases hstep
        apply hchange _ (by simp)
        exact shown h trivial (fun m hm => by cases hm) (by rw [hscreen]; rfl) rfl
      · cases hstep
  | newTask c docId uid uuid data =>
      simp only [step] at hstep
      split at hstep
      · next hscreen hnone =>
        cases hstep
        apply hchange _ (by simp)
        have hwf := newTask_wellFormed z uid uuid data
        exact worked h hscreen (perform_wellFormed (w := a.world.fresh) (keeps_createTask hwf)
          h.wellFormed) (.inr ⟨rfl, perform_quiet (quiet_createTask _) a.world.fresh⟩)
      · cases hstep
  | task c docId op =>
      simp only [step] at hstep
      split at hstep
      · next d hscreen hd =>
        obtain ⟨-, heq⟩ := Option.ite_none_right_eq_some.mp hstep
        cases heq
        apply hchange _ (by simp)
        apply worked h hscreen (performOp_wellFormed h.wellFormed op)
        rcases performOp_balance key (z := z) (c := c) hd (h.wellFormed docId d hd) op with
          ⟨rfl, hpos, hmoney, hhome⟩ | ⟨hzero, hmoney, hhome⟩
        · simp only [earned, hd]
          exact .inl ⟨hpos, hmoney, hhome⟩
        · refine .inr ⟨?_, hmoney, hhome⟩
          cases op with
          | complete =>
              simp only [earned, hd]
              exact hzero rfl
          | _ => rfl
      · cases hstep
  | dismissed c docId =>
      simp only [step] at hstep
      split at hstep
      · next d hscreen hd =>
        obtain ⟨-, heq⟩ := Option.ite_none_right_eq_some.mp hstep
        cases heq
        apply hchange _ (by simp)
        have ht := (h.wellFormed docId d hd).read docId
        exact worked h hscreen (perform_wellFormed (w := a.world.fresh)
          (keeps_processCompletion ht) h.wellFormed)
          (.inr ⟨rfl, perform_quiet (quiet_processCompletion _) a.world.fresh⟩)
      · cases hstep
  | shop tap =>
      simp only [step] at hstep
      split at hstep
      · next screen hscreen =>
        obtain ⟨s, hs, rfl⟩ := Option.map_eq_some_iff.mp hstep
        exact hchange (shopped h hscreen hs) (by simp)
      · cases hstep
  | openTimer =>
      simp only [step] at hstep
      split at hstep
      · next hscreen =>
        cases hstep
        apply hchange _ (by simp)
        exact shown h ⟨CountDown.inv_initial _, running_initial _⟩
          (fun m hm => (Option.some.inj hm).symm) (by rw [hscreen]; rfl) rfl
      · cases hstep
  | showCountDown =>
      simp only [step] at hstep
      split at hstep
      · next x hscreen =>
        obtain ⟨hidle, heq⟩ := Option.ite_none_left_eq_some.mp hstep
        cases heq
        apply hchange _ (by simp)
        have hsound := h.sound
        rw [hscreen] at hsound
        refine shown h ⟨CountDown.inv_initial _, running_initial _⟩
          (fun m hm => (Option.some.inj hm).symm) ?_ rfl
        rw [hscreen]
        exact decide_eq_false fun hopen => hidle (hsound.started (by simp [hopen]))
      · cases hstep
  | showCountUp now =>
      simp only [step] at hstep
      split at hstep
      · next s hscreen =>
        obtain ⟨hidle, heq⟩ := Option.ite_none_left_eq_some.mp hstep
        cases heq
        apply hchange _ (by simp)
        have hsound := h.sound
        rw [hscreen] at hsound
        refine shown h still_initial
          (fun m hm => (Option.some.inj hm).symm) ?_ rfl
        rw [hscreen]
        exact decide_eq_false fun hopen => hidle (hsound.1.completeTask hopen).1
      · cases hstep
  | countDown act readings =>
      simp only [step] at hstep
      split at hstep
      · next s hscreen =>
        obtain ⟨s', hs', hrest⟩ := Option.bind_eq_some_iff.mp hstep
        obtain ⟨a₁, hsettle, rfl⟩ := Option.map_eq_some_iff.mp hrest
        have hsound := h.sound
        rw [hscreen] at hsound
        obtain ⟨hinv, hrun⟩ := hsound
        apply hchange _ (by simp)
        exact timed h (countDown_till hinv hrun hs') (by rw [hscreen]; rfl) (by rw [hscreen]; rfl)
          hsettle ⟨hinv.step hs', hrun.step hinv hs'⟩ rfl rfl
      · cases hstep
  | countUp event readings =>
      simp only [step] at hstep
      split at hstep
      · next x hscreen =>
        obtain ⟨x', hx', hrest⟩ := Option.bind_eq_some_iff.mp hstep
        obtain ⟨a₁, hsettle, rfl⟩ := Option.map_eq_some_iff.mp hrest
        have hact := (CountUp.step_cases hx').2.1
        have hsound := h.sound
        rw [hscreen] at hsound
        apply hchange _ (by simp)
        exact timed h (countUp_till hsound hact) (by rw [hscreen]; rfl) (by rw [hscreen]; rfl)
          hsettle (hsound.act hact) rfl rfl
      · cases hstep
  | systemBack =>
      obtain ⟨screen, hpopped, rfl⟩ := Option.map_eq_some_iff.mp hstep
      obtain ⟨hsound, hmoney, hclosed⟩ := popped_spec h.sound hpopped
      have hsynced : ∀ m, screen.fishMoney = some m → m = a.world.money :=
        fun m hm => h.synced m (hmoney m hm)
      by_cases hopen : a.screen.completing = true
      · refine ⟨⟨h.wellFormed, h.keys, hsound, hsynced⟩, .inr ⟨⟨rfl, hopen⟩, rfl, ?_⟩⟩
        simp only [App.figures, hclosed]
      · obtain ⟨hcons, hf⟩ := shown h hsound hsynced (Bool.eq_false_iff.mpr hopen) hclosed
        exact ⟨hcons, .inl ⟨hf, fun hlost => hopen hlost.2⟩⟩

theorem Inv.step (h : Inv a) (hstep : step key z a e = some a') : Inv a' := by
  obtain ⟨hcons, ⟨hchange, -⟩ | ⟨hlost, -, hfigures⟩⟩ := step_spec h.toConsistent hstep
  · exact ⟨hcons, h.figures.change hchange⟩
  · refine ⟨hcons, ?_⟩
    rw [hfigures]
    exact ⟨h.figures.home_nonneg, h.figures.home_le, fun hopen => absurd hopen (by simp)⟩

/-- The agreement is lost exactly where the dialog is closed without its button. -/
theorem agree_step_iff (h : Inv a) (ha : a.figures.Agree) (hstep : step key z a e = some a') :
    a'.figures.Agree ↔ ¬ Lost a e := by
  obtain ⟨-, ⟨hchange, hkept⟩ | ⟨hlost, -, hfigures⟩⟩ := step_spec h.toConsistent hstep
  · exact iff_of_true (ha.change hchange) hkept
  · refine iff_of_false (fun hagree => ?_) (not_not.mpr hlost)
    -- with the dialog open the home screen was behind
    have hbehind := h.figures.behind hlost.2
    rw [hfigures] at hagree
    exact absurd (hagree rfl) hbehind.ne

end Step

/-! ## Runs -/

section Runs

variable {w : World κ} (marLives : Option (List ℤ)) {focus : Collection}

omit [DecidableEq κ] in
theorem inv_atHome (hw : w.WellFormed) (hmoney : 0 ≤ w.money)
    (hkeys : (focus.map (·.1)).Nodup) : Inv (.atHome w marLives focus) where
  wellFormed := hw
  keys := hkeys
  sound := trivial
  synced m hm := by cases hm
  figures := ⟨hmoney, le_refl _, fun hopen => absurd hopen (by simp [App.figures, App.atHome,
    Screen.completing])⟩

/-- **The home screen never shows more than there is**, and shows the balance
whenever no completed session waits for its button, exactly when no such dialog
is closed by the system's back button. -/
theorem home_iff_button (hw : w.WellFormed) (hmoney : 0 ≤ w.money)
    (hkeys : (focus.map (·.1)).Nodup) (es : List Event) :
    Always (step key z) (fun a => 0 ≤ a.world.fishMoney ∧ a.world.fishMoney ≤ a.world.money)
        (.atHome w marLives focus) es
      ∧ (Always (step key z)
            (fun a => a.screen.completing = false → a.world.fishMoney = a.world.money)
            (.atHome w marLives focus) es
          ↔ Meets (step key z) (fun a e => ¬ Lost a e) (.atHome w marLives focus) es) := by
  have hstart : Inv (.atHome w marLives focus) := inv_atHome marLives hw hmoney hkeys
  have hkeep : ∀ a e a', Inv a → step key z a e = some a' → Inv a' :=
    fun _ _ _ h hstep => h.step hstep
  refine ⟨fun pre _ a ha => ?_, ?_⟩
  · have hinv : Inv a := run_invariant _ hkeep hstart ha
    exact ⟨hinv.figures.home_nonneg, hinv.figures.home_le⟩
  · have hinv : ∀ a e a', Inv a → a.figures.Agree → step key z a e = some a' → ¬ Lost a e →
        Inv a' := fun a e a' h _ hstep _ => hkeep a e a' h hstep
    exact always_iff_meets hinv (fun _ _ _ h ha hstep => agree_step_iff h ha hstep) hstart
      (fun _ => rfl) es

/-- **The books balance**: in every run what was there and what was earned is
what there is and what was spent, where a focus session earns the time it adds
to the record, and a task its coins when its dialog is closed by the button. -/
theorem money_books (hw : w.WellFormed) (hkeys : (focus.map (·.1)).Nodup) {es : List Event}
    {a : App κ} (hrun : run (step key z) (.atHome w marLives focus) es = some a) :
    a.world.money + (a.charges.map (·.marLife.price)).sum
      = w.money + (totalTime a.focus - totalTime focus)
        + tally (step key z) (earned z) (.atHome w marLives focus) es := by
  have hstart : Consistent (.atHome w marLives focus) :=
    ⟨hw, hkeys, trivial, fun m hm => by cases hm⟩
  have hkeep : ∀ a e a', Consistent a → step key z a e = some a' → Consistent a' :=
    fun a e a' h hstep => (step_spec h hstep).1
  have hcolumn : ∀ (a : App κ) e a', Consistent a → step key z a e = some a' →
      a'.figures.money + a'.figures.charged - a'.figures.focused
        = a.figures.money + a.figures.charged - a.figures.focused + earned z a e := by
    intro a e a' h hstep
    obtain ⟨-, ⟨hchange, -⟩ | ⟨-, hzero, hfigures⟩⟩ := step_spec h hstep
    · exact hchange.books
    · rw [hfigures, hzero, add_zero]
  have hbooks : a.world.money + (a.charges.map (·.marLife.price)).sum - totalTime a.focus
      = w.money + 0 - totalTime focus
        + tally (step key z) (earned z) (.atHome w marLives focus) es :=
    tally_run hkeep hcolumn hstart hrun
  omega

end Runs

omit [DecidableEq κ] in
theorem wellFormed_empty : (World.empty : World κ).WellFormed := fun id d hd => by cases hd

theorem nodup_noFocus : (([] : Collection).map (·.1)).Nodup := List.nodup_nil

/-- A session of ten seconds, up to the dialog that pays for it, at one moment. -/
def tenSeconds (t : DateTime) : List Event :=
  let session : List CountDown.Action :=
    [.minutes 0, .seconds 10, .start t] ++ List.replicate 11 (.tick t)
  .openTimer :: session.map (.countDown · (.at t))

/-- The dialog is closed by the system's back button, and the next screen too. -/
def leftBehind (t : DateTime) : List Event := tenSeconds t ++ [.systemBack, .systemBack]

/-- Ten coins are on the account then, and the home screen shows none. -/
theorem home_iff_button_leftBehind :
    (∃ a, run (step AppTask.id utc) (.atHome .empty none []) (leftBehind (.ofMillis 0)) = some a
        ∧ a.world.money = 10 ∧ a.world.fishMoney = 0)
      ∧ Always (step AppTask.id utc)
          (fun a => 0 ≤ a.world.fishMoney ∧ a.world.fishMoney ≤ a.world.money)
          (.atHome .empty none []) (leftBehind (.ofMillis 0))
      ∧ (Always (step AppTask.id utc)
            (fun a => a.screen.completing = false → a.world.fishMoney = a.world.money)
            (.atHome .empty none []) (leftBehind (.ofMillis 0))
          ↔ Meets (step AppTask.id utc) (fun a e => ¬ Lost a e)
            (.atHome .empty none []) (leftBehind (.ofMillis 0))) :=
  ⟨⟨_, rfl, rfl, rfl⟩, home_iff_button AppTask.id utc none wellFormed_empty (le_refl 0)
    nodup_noFocus _⟩

theorem money_books_tenSeconds :
    ∃ a, run (step AppTask.id utc) (.atHome .empty none []) (tenSeconds (.ofMillis 0)) = some a
      ∧ a.world.money + (a.charges.map (·.marLife.price)).sum
        = 0 + (totalTime a.focus - totalTime [])
          + tally (step AppTask.id utc) (earned utc) (.atHome .empty none [])
            (tenSeconds (.ofMillis 0)) :=
  ⟨_, rfl, money_books AppTask.id utc none wellFormed_empty nodup_noFocus rfl⟩

end AquaFocus.Balance
