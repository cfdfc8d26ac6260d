/-
`lib/screens/Tasks/calendar_body.dart`: the loads of the calendar screen.

`_getEvents` starts a query, and calls `setState` when it is answered. It is
called where the screen is opened, and again by `_getEventsForDay`, which `build`
calls itself and hands to the calendar as its `eventLoader`. So every build starts
a query, and every answer a build, whatever the store holds (`never_rests`).

A step is one answer of a query, one build, or one action of the user; what is
between two steps happens at once. Of the day that is kept a run knows no more
than its taps (`selectedDay_of_run`). Completing and deleting tasks change the
store, and are no steps here.
-/
import AquaFocus.Calendar
import AquaFocus.Lib.Runs

set_option autoImplicit false

open Dart Runs

namespace AquaFocus.CalendarLoad

/-! ## The screen -/

structure Screen where
  loading : Bool
  eventList : List AppTask
  selectedDay : Option DateTime
  /-- the tasks listed below the calendar -/
  selectedEvents : List AppTask
  mounted : Bool
  /-- whether `setState` was called since the last build -/
  dirty : Bool
  /-- the calls of `_getEvents` that wait for their query -/
  pending : ℕ
  /-- the queries issued so far -/
  queries : ℕ

/-- `_getEvents`, up to its `await`. -/
def getEvents (s : Screen) : Screen :=
  { s with pending := s.pending + 1, queries := s.queries + 1 }

/-- `initState`. The first build is still to come. -/
def initState (now : DateTime) : Screen :=
  getEvents {
    loading := true
    eventList := []
    selectedDay := some now
    selectedEvents := []
    mounted := true
    dirty := true
    pending := 0
    queries := 0 }

variable (z : Zone)

/-- `_getEventsForDay`: what is found, and the load that is started. -/
def getEventsForDay (day : Option DateTime) (s : Screen) : List AppTask × Screen :=
  (AquaFocus.getEventsForDay z day s.eventList, getEvents s)

/-- `_getEventsForDay` for each of some days, as `eventLoader` and for a range. -/
def getEventsForDays (days : List DateTime) (s : Screen) : List AppTask × Screen :=
  (days.flatMap fun d => AquaFocus.getEventsForDay z (some d) s.eventList,
    getEvents^[days.length] s)

/-- `_getEventsForRange`; a `RangeError` comes before any load. -/
def getEventsForRange (start stop : DateTime) (s : Screen) : Option (List AppTask × Screen) :=
  (Calendar.daysInRange z start stop).map fun days => getEventsForDays z days s

/-- `setState`. -/
def setState (f : Screen → Screen) (s : Screen) : Screen := { f s with dirty := true }

/-- `_selectedEvents.value = events`. -/
def select (found : List AppTask × Screen) : Screen := { found.2 with selectedEvents := found.1 }

inductive Event
  /-- a query is answered -/
  | answered
  /-- the framework builds the screen, and the calendar asks for these days -/
  | build (visible : List DateTime)
  | daySelected (selectedDay : DateTime)
  | rangeSelected (start stop : Option DateTime) (focusedDay : DateTime)
  | formatChanged
  /-- another page, for which the calendar asks for these days -/
  | pageChanged (visible : List DateTime)
  | dispose

/-- `build`. -/
def build (visible : List DateTime) (s : Screen) : Screen :=
  let s := select (getEventsForDay z s.selectedDay { s with dirty := false })
  -- the calendar is not there while the first load is under way
  if s.loading then s else (getEventsForDays z visible s).2

/-- `_onDaySelected`. -/
def onDaySelected (selectedDay : DateTime) (s : Screen) : Screen :=
  if isSameDay z s.selectedDay (some selectedDay) then s
  else select (getEventsForDay z (some selectedDay)
    (setState (fun s => { s with selectedDay := some selectedDay }) s))

/-- `_onRangeSelected`. -/
def onRangeSelected (start stop : Option DateTime) (focusedDay : DateTime) (s : Screen) :
    Screen :=
  let s := setState (fun s => { s with selectedDay := some focusedDay }) s
  match start, stop with
  | some start, some stop => ((getEventsForRange z start stop s).map select).getD s
  | some start, none => select (getEventsForDay z (some start) s)
  | none, some stop => select (getEventsForDay z (some stop) s)
  | none, none => s

/-- One step, over a store whose tasks are `stored`. -/
def step (stored : List AppTask) (s : Screen) : Event → Option Screen
  | .answered =>
      if s.pending = 0 then none
      else
        let s := { s with pending := s.pending - 1, eventList := stored }
        some (if s.mounted then setState (fun s => { s with loading := false }) s else s)
  | .build visible => if s.mounted && s.dirty then some (build z visible s) else none
  | .daySelected selectedDay =>
      if s.mounted && !s.loading then some (onDaySelected z selectedDay s) else none
  | .rangeSelected start stop focusedDay =>
      if s.mounted && !s.loading then some (onRangeSelected z start stop focusedDay s) else none
  | .formatChanged => if s.mounted && !s.loading then some (setState id s) else none
  | .pageChanged visible =>
      if s.mounted && !s.loading then some (getEventsForDays z visible s).2 else none
  | .dispose => some { s with mounted := false }

/-- The steps the user has no part in. -/
inductive Idle : Event → Prop
  | answered : Idle .answered
  | build (visible : List DateTime) : Idle (.build visible)

/-! ## What the screen has to do -/

/-- A mounted screen waits for a query, or for a build. -/
def Busy (s : Screen) : Prop := s.mounted = true → 0 < s.pending ∨ s.dirty = true

variable {z} {stored : List AppTask} {s s' : Screen}

theorem iterate_getEvents (n : ℕ) (s : Screen) :
    getEvents^[n] s = { s with pending := s.pending + n, queries := s.queries + n } := by
  induction n with
  | zero => rfl
  | succ n ih =>
      rw [Function.iterate_succ_apply', ih]
      simp only [getEvents, add_assoc]

/-- A build starts as many loads as it issues queries, one at least. -/
theorem build_loads (z : Zone) (visible : List DateTime) (s : Screen) :
    ∃ n, 0 < n ∧ (build z visible s).pending = s.pending + n
      ∧ (build z visible s).queries = s.queries + n
      ∧ (build z visible s).mounted = s.mounted := by
  unfold build
  by_cases hloading : s.loading = true
  · exact ⟨1, by decide, by simp [select, getEventsForDay, getEvents, hloading]⟩
  · refine ⟨1 + visible.length, by omega, ?_⟩
    simp [select, getEventsForDay, getEventsForDays, iterate_getEvents, getEvents, hloading,
      add_assoc]

/-- A range leaves what is to be built. -/
theorem onRangeSelected_dirty (z : Zone) (start stop : Option DateTime) (focusedDay : DateTime)
    (s : Screen) : (onRangeSelected z start stop focusedDay s).dirty = true := by
  unfold onRangeSelected
  cases start with
  | none => cases stop <;> rfl
  | some start =>
      cases stop with
      | none => rfl
      | some stop =>
          simp only [getEventsForRange]
          cases Calendar.daysInRange z start stop with
          | none => rfl
          | some days =>
              simp [getEventsForDays, select, iterate_getEvents, setState]

/-- The tap an event is, on a day or a range. -/
def Event.tap? : Event → Option Calendar.Tap
  | .daySelected selectedDay => some (.daySelected selectedDay)
  | .rangeSelected _ _ focusedDay => some (.rangeSelected focusedDay)
  | _ => none

theorem onRangeSelected_selectedDay (z : Zone) (start stop : Option DateTime)
    (focusedDay : DateTime) (s : Screen) :
    (onRangeSelected z start stop focusedDay s).selectedDay = some focusedDay := by
  unfold onRangeSelected
  cases start with
  | none => cases stop <;> rfl
  | some start =>
      cases stop with
      | none => rfl
      | some stop =>
          simp only [getEventsForRange]
          cases Calendar.daysInRange z start stop with
          | none => rfl
          | some days => simp [getEventsForDays, select, iterate_getEvents, setState]

/-- A step changes the day that is kept by its tap only. -/
theorem selectedDay_of_step {e : Event} (hstep : step z stored s e = some s') :
    s'.selectedDay = e.tap?.elim s.selectedDay (Calendar.onTap z s.selectedDay) := by
  cases e with
  | answered =>
      simp only [CalendarLoad.step, Option.ite_none_left_eq_some, Option.some.injEq] at hstep
      obtain ⟨-, rfl⟩ := hstep
      split <;> rfl
  | build visible =>
      simp only [CalendarLoad.step, Option.ite_none_right_eq_some, Option.some.injEq] at hstep
      obtain ⟨-, rfl⟩ := hstep
      unfold build
      by_cases hloading : s.loading = true
      · simp [Event.tap?, select, getEventsForDay, getEvents, hloading]
      · simp [Event.tap?, select, getEventsForDay, getEventsForDays, iterate_getEvents, getEvents,
          hloading]
  | daySelected selectedDay =>
      simp only [CalendarLoad.step, Option.ite_none_right_eq_some, Option.some.injEq] at hstep
      obtain ⟨-, rfl⟩ := hstep
      simp only [Event.tap?, Option.elim_some, Calendar.onTap, Calendar.onDaySelected,
        CalendarLoad.onDaySelected]
      split <;> rfl
  | rangeSelected start stop focusedDay =>
      simp only [CalendarLoad.step, Option.ite_none_right_eq_some, Option.some.injEq] at hstep
      obtain ⟨-, rfl⟩ := hstep
      exact onRangeSelected_selectedDay z start stop focusedDay s
  | formatChanged =>
      simp only [CalendarLoad.step, Option.ite_none_right_eq_some, Option.some.injEq] at hstep
      obtain ⟨-, rfl⟩ := hstep
      rfl
  | pageChanged visible =>
      simp only [CalendarLoad.step, Option.ite_none_right_eq_some, Option.some.injEq] at hstep
      obtain ⟨-, rfl⟩ := hstep
      simp only [Event.tap?, Option.elim_none, getEventsForDays, iterate_getEvents]
  | dispose =>
      cases hstep
      rfl

/-- The day a screen keeps is the one its taps leave: a task is added for it as
`Calendar.appears_iff` says. -/
theorem selectedDay_of_run {now : DateTime} {es : List Event}
    (h : run (step z stored) (initState now) es = some s) :
    s.selectedDay = Calendar.selectedAfter z now (es.filterMap Event.tap?) := by
  induction es using List.reverseRecOn generalizing s with
  | nil =>
      rw [run_nil, Option.some.injEq] at h
      subst h
      rfl
  | append_singleton es e ih =>
      rw [run_append, Option.bind_eq_some_iff] at h
      obtain ⟨t, hrun, hlast⟩ := h
      rw [run_cons, Option.bind_eq_some_iff] at hlast
      obtain ⟨s', hstep, hnil⟩ := hlast
      rw [run_nil, Option.some.injEq] at hnil
      subst hnil
      rw [selectedDay_of_step hstep, ih hrun, List.filterMap_append]
      cases htap : e.tap? with
      | none => simp [htap]
      | some tap => simp [htap, Calendar.selectedAfter_snoc]

/-- Every step leaves a mounted screen with something to do. -/
theorem Busy.step {e : Event} (h : Busy s) (hstep : step z stored s e = some s') : Busy s' := by
  cases e with
  | answered =>
      simp only [CalendarLoad.step, Option.ite_none_left_eq_some, Option.some.injEq] at hstep
      obtain ⟨-, rfl⟩ := hstep
      intro hmounted
      by_cases hm : s.mounted = true
      · rw [if_pos hm]
        exact .inr rfl
      · rw [if_neg hm] at hmounted
        exact absurd hmounted hm
  | build visible =>
      simp only [CalendarLoad.step, Option.ite_none_right_eq_some, Option.some.injEq] at hstep
      obtain ⟨-, rfl⟩ := hstep
      obtain ⟨n, hn, hpending, -⟩ := build_loads z visible s
      intro _
      rw [hpending]
      exact .inl (by omega)
  | daySelected selectedDay =>
      simp only [CalendarLoad.step, Option.ite_none_right_eq_some, Option.some.injEq] at hstep
      obtain ⟨-, rfl⟩ := hstep
      unfold onDaySelected
      split
      · exact h
      · exact fun _ => .inr rfl
  | rangeSelected start stop focusedDay =>
      simp only [CalendarLoad.step, Option.ite_none_right_eq_some, Option.some.injEq] at hstep
      obtain ⟨-, rfl⟩ := hstep
      exact fun _ => .inr (onRangeSelected_dirty ..)
  | formatChanged =>
      simp only [CalendarLoad.step, Option.ite_none_right_eq_some, Option.some.injEq] at hstep
      obtain ⟨-, rfl⟩ := hstep
      exact fun _ => .inr rfl
  | pageChanged visible =>
      simp only [CalendarLoad.step, Option.ite_none_right_eq_some, Option.some.injEq] at hstep
      obtain ⟨-, rfl⟩ := hstep
      simp only [Busy, getEventsForDays, iterate_getEvents]
      exact fun hmounted => (h hmounted).imp_left fun hpending => by omega
  | dispose =>
      cases hstep
      intro hmounted
      cases hmounted

/-- An answered query is followed by a build, and a build by a query. -/
theorem Busy.next (h : Busy s) (hmounted : s.mounted = true) (z : Zone)
    (stored : List AppTask) :
    ∃ e s', Idle e ∧ CalendarLoad.step z stored s e = some s' ∧ Busy s' ∧ s'.mounted = true := by
  by_cases hdirty : s.dirty = true
  · have hstep : CalendarLoad.step z stored s (.build []) = some (build z [] s) := by
      simp [CalendarLoad.step, hmounted, hdirty]
    obtain ⟨n, -, -, -, hkept⟩ := build_loads z [] s
    exact ⟨_, _, .build [], hstep, h.step hstep, hkept.trans hmounted⟩
  · have hpending : s.pending ≠ 0 := by
      have := (h hmounted).resolve_right hdirty
      omega
    have hstep : CalendarLoad.step z stored s .answered
        = some (setState (fun s => { s with loading := false })
            { s with pending := s.pending - 1, eventList := stored }) := by
      simp [CalendarLoad.step, hmounted, hpending]
    exact ⟨_, _, .answered, hstep, h.step hstep, hmounted⟩

/-- A step of its own costs the screen a load it had started, or starts one. -/
theorem queries_of_step {e : Event} (he : Idle e) (hstep : step z stored s e = some s') :
    1 + 2 * s.queries + s'.pending ≤ s.pending + 2 * s'.queries := by
  cases he with
  | answered =>
      simp only [CalendarLoad.step, Option.ite_none_left_eq_some, Option.some.injEq] at hstep
      obtain ⟨hpending, rfl⟩ := hstep
      by_cases hm : s.mounted = true
      · rw [if_pos hm]
        simp only [setState]
        omega
      · rw [if_neg hm]
        simp only
        omega
  | build visible =>
      simp only [CalendarLoad.step, Option.ite_none_right_eq_some, Option.some.injEq] at hstep
      obtain ⟨-, rfl⟩ := hstep
      obtain ⟨n, hn, hpending, hqueries, -⟩ := build_loads z visible s
      omega

/-- Left to itself the screen issues a query every other step, once the loads that
were under way are done. -/
theorem queries_of_idle {es : List Event} (hes : ∀ e ∈ es, Idle e)
    (h : run (step z stored) s es = some s') :
    es.length + 2 * s.queries + s'.pending ≤ s.pending + 2 * s'.queries := by
  induction es generalizing s with
  | nil =>
      rw [run_nil, Option.some.injEq] at h
      subst h
      simp only [List.length_nil]
      omega
  | cons e es ih =>
      rw [run_cons, Option.bind_eq_some_iff] at h
      obtain ⟨t, hstep, hrun⟩ := h
      have hfirst := queries_of_step (hes e List.mem_cons_self) hstep
      have hrest := ih (fun e he => hes e (List.mem_cons_of_mem _ he)) hrun
      rw [List.length_cons]
      omega

theorem busy_initState (now : DateTime) : Busy (initState now) := fun _ => .inr rfl

theorem not_rests_of_busy (z : Zone) (stored : List AppTask) (h : Busy s)
    (hmounted : s.mounted = true) : ¬ Rests (step z stored) Idle s := by
  have hnext : ∀ t, Busy t ∧ t.mounted = true → ∃ e t', Idle e
      ∧ step z stored t e = some t' ∧ Busy t' ∧ t'.mounted = true :=
    fun t ht => ht.1.next ht.2 z stored
  exact not_rests hnext ⟨h, hmounted⟩

/-- **The calendar never comes to rest**: from every state it is in while mounted
there is a run without end of answers and builds, and in every such run queries
are issued, one for every two steps. -/
theorem never_rests (z : Zone) (stored : List AppTask) (now : DateTime) {es : List Event}
    (h : run (step z stored) (initState now) es = some s) (hmounted : s.mounted = true) :
    ¬ Rests (step z stored) Idle s
      ∧ ∀ es' t, (∀ e ∈ es', Idle e) → run (step z stored) s es' = some t →
          es'.length ≤ s.pending + 2 * (t.queries - s.queries) := by
  have hbusy : Busy s :=
    run_invariant _ (fun _ _ _ ht hstep => Busy.step ht hstep) (busy_initState now) h
  refine ⟨not_rests_of_busy z stored hbusy hmounted, fun es' t hes ht => ?_⟩
  have hqueries := queries_of_idle hes ht
  omega

/-- So it is as soon as the screen is opened, over an empty store too. -/
theorem not_rests_empty :
    ¬ Rests (step utc []) Idle (initState (.ofMicros 1654084800000000)) :=
  not_rests_of_busy utc [] (busy_initState _) rfl

theorem never_rests_empty :
    ¬ Rests (step utc []) Idle (initState (.ofMicros 1654084800000000))
      ∧ ∀ es' t, (∀ e ∈ es', Idle e) →
          run (step utc []) (initState (.ofMicros 1654084800000000)) es' = some t →
          es'.length ≤ 1 + 2 * (t.queries - 1) := by
  have hopened : run (step utc []) (initState (.ofMicros 1654084800000000)) []
      = some (initState (.ofMicros 1654084800000000)) := rfl
  exact never_rests utc [] _ hopened rfl

end AquaFocus.CalendarLoad
