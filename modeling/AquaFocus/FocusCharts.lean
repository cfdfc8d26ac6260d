/-
`lib/screens/UserPages/Statistics`: the charts of the focus time. The line chart
(`line_chart.dart`) shows today hour by hour, the bar chart (`bar_chart.dart`)
this week day by day, and the heat map (`heatmap.dart`) every day there is.

They read the same documents in three ways, and nothing makes them agree but
what `saveFocusTime` writes: the time of a day stands in its document once as a
total and once as twenty-four hours, and its date once as the id and once as a
field. `charts_agree` says what they show after any run of sessions that each
lie within a clock hour of one day.
-/
import AquaFocus.FocusStore
import AquaFocus.FocusSaves
import AquaFocus.Lib.Tally
import Mathlib.Algebra.Order.Floor.Ring
import Mathlib.Algebra.BigOperators.Fin
import Mathlib.Data.List.GetD
import Mathlib.Data.Rat.Floor
import Mathlib.Tactic.Linarith
import Mathlib.Tactic.FieldSimp

set_option autoImplicit false

open Dart Runs

namespace AquaFocus.FocusCharts

open FocusTime (Date Hours Collection AtHour formatDate)
open FocusStore (Docs)
open WeeklyChart (documentId weekKeys)

/-! ## The axes -/

/-- `reduce` with the larger of two values; of an empty list it throws. -/
def reduceMax : List ℤ → Option ℤ
  | [] => none
  | value :: values =>
      some (values.foldl (fun value element => if value > element then value else element) value)

/-- `(m / 10).ceilToDouble() * 10`. -/
def ceilToTen (m : ℤ) : ℚ := ⌈(m : ℚ) / 10⌉ * 10

/-! ## The line chart -/

structure LineChartData where
  minY : ℚ
  maxY : ℚ
  spots : List (ℚ × ℚ)

/-- `mainData`. -/
def mainData (dailyHours : List ℤ) : Option LineChartData :=
  (reduceMax dailyHours).bind fun m =>
    ((List.range 24).mapM fun index : ℕ =>
      dailyHours[index]?.map fun hour : ℤ => ((index : ℚ), (hour : ℚ))).map fun spots =>
        ⟨0, ceilToTen m, spots⟩

/-- `avgData`. -/
def avgData (dailyTotal : ℤ) (dailyHours : List ℤ) : Option LineChartData :=
  (reduceMax dailyHours).map fun m =>
    ⟨0, ceilToTen m, (List.range 24).map fun index : ℕ => ((index : ℚ), (dailyTotal : ℚ) / 24)⟩

/-- `initData`. -/
def initData : LineChartData where
  minY := 0
  maxY := 200
  spots := (List.range 24).map fun index : ℕ => ((index : ℚ), 0)

/-- `build`: the button switches to the average, where there is a record. -/
def lineChart (dailyTotal : ℤ) (dailyHours : List ℤ) (showAvg : Bool) : Option LineChartData :=
  if dailyHours.isEmpty then some initData
  else if showAvg then avgData dailyTotal dailyHours
  else mainData dailyHours

/-- `getDailyHours`, and the chart of what it has read. -/
def lineChartWidget (z : Zone) (docs : Docs) (now : DateTime) (showAvg : Bool) :
    Option LineChartData :=
  let date := documentId (formatDate z now)
  lineChart (FocusStore.getTimeOfTheDay docs date) (FocusStore.getTimeOfTheHours docs date) showAvg

/-! ## The bar chart -/

/-- `backDrawRodData`: the background of every bar. -/
def backDraw (weekHours : List ℤ) : Option ℚ :=
  if weekHours = List.replicate 7 0 then some 200 else (reduceMax weekHours).map ceilToTen

/-- `showingGroups`: the bars, each with its background. -/
def showingGroups (weekHours : List ℤ) : Option (List (ℚ × ℚ)) :=
  (backDraw weekHours).bind fun toY =>
    (List.range 7).mapM fun i : ℕ => weekHours[i]?.map fun hours : ℤ => ((hours : ℚ), toY)

/-- `hourOfTheDay`, and the bars of what it has read. -/
def barChartWidget (z : Zone) (docs : Docs) (now : DateTime) : Option (List (ℚ × ℚ)) :=
  showingGroups ((weekKeys z now).map (FocusStore.getTimeOfTheDay docs))

/-! ## What the axes reach -/

theorem foldl_max (values : List ℤ) (value : ℤ) :
    values.foldl (fun value element => if value > element then value else element) value
      = values.foldl max value := by
  congr 1
  funext value element
  rw [max_def]
  split <;> split <;> omega

/-- The largest value is one of them. -/
theorem reduceMax_spec {values : List ℤ} (h : values ≠ []) :
    ∃ m, reduceMax values = some m ∧ m ∈ values ∧ ∀ x ∈ values, x ≤ m := by
  obtain ⟨value, rest, rfl⟩ := List.exists_cons_of_ne_nil h
  refine ⟨rest.foldl max value, congrArg some (foldl_max rest value), ?_⟩
  have hloop : ∀ (rest : List ℤ) (value : ℤ), rest.foldl max value ∈ value :: rest
      ∧ ∀ x ∈ value :: rest, x ≤ rest.foldl max value := by
    intro rest
    induction rest with
    | nil => exact fun value => ⟨List.mem_cons_self, fun x hx => (List.mem_singleton.mp hx).le⟩
    | cons y rest ih =>
        intro value
        obtain ⟨hmem, hle⟩ := ih (max value y)
        rw [List.foldl_cons]
        have hmax := hle (max value y) List.mem_cons_self
        refine ⟨?_, fun x hx => ?_⟩
        · rcases List.mem_cons.mp hmem with heq | hrest
          · rw [heq]
            rcases max_choice value y with hv | hy
            · rw [hv]
              exact List.mem_cons_self
            · rw [hy]
              exact List.mem_cons_of_mem _ List.mem_cons_self
          · exact List.mem_cons_of_mem _ (List.mem_cons_of_mem _ hrest)
        · rcases List.mem_cons.mp hx with rfl | hx
          · exact (le_max_left x y).trans hmax
          · rcases List.mem_cons.mp hx with rfl | hx
            · exact (le_max_right value x).trans hmax
            · exact hle x (List.mem_cons_of_mem _ hx)
  exact hloop rest value

theorem le_ceilToTen (m : ℤ) : (m : ℚ) ≤ ceilToTen m := by
  have hceil := Int.le_ceil ((m : ℚ) / 10)
  unfold ceilToTen
  linarith

/-- A list is generated where none of its entries throws. -/
theorem mapM_eq_some {α β : Type} {f : α → Option β} {g : α → β} {l : List α}
    (h : ∀ x ∈ l, f x = some (g x)) : l.mapM f = some (l.map g) := by
  induction l with
  | nil => rfl
  | cons x l ih =>
      rw [List.mapM_cons, h x List.mem_cons_self,
        ih fun y hy => h y (List.mem_cons_of_mem x hy)]
      rfl

/-- The entries of a list, by their places. -/
theorem map_getD_range (values : List ℤ) :
    (List.range values.length).map (fun i => values.getD i 0) = values := by
  apply List.ext_getElem
  · rw [List.length_map, List.length_range]
  · intro i hi hi'
    rw [List.getElem_map, List.getElem_range, List.getD_eq_getElem _ _ hi']

/-- What the chart of a list shows: `spots` is made of its values. -/
theorem generate_eq {β : Type} (f : ℕ → ℤ → β) {values : List ℤ} {n : ℕ} (h : values.length = n) :
    (List.range n).mapM (fun i => values[i]?.map (f i))
      = some ((List.range n).map fun i => f i (values.getD i 0)) := by
  apply mapM_eq_some
  intro i hi
  have hlt : i < values.length := h ▸ List.mem_range.mp hi
  rw [List.getElem?_eq_getElem hlt, List.getD_eq_getElem _ _ hlt]
  rfl

/-! ## What the line chart shows -/

/-- The values of a line, added up. -/
def LineChartData.area (chart : LineChartData) : ℚ := (chart.spots.map (·.2)).sum

/-- The line is drawn between the axes. -/
def LineChartData.Fits (chart : LineChartData) : Prop :=
  ∀ spot ∈ chart.spots, chart.minY ≤ spot.2 ∧ spot.2 ≤ chart.maxY

theorem sum_cast (values : List ℤ) : (values.map fun x : ℤ => (x : ℚ)).sum = (values.sum : ℚ) := by
  induction values with
  | nil => rfl
  | cons x values ih =>
      rw [List.map_cons, List.sum_cons, List.sum_cons, ih]
      push_cast
      rfl

theorem sum_le_length_mul {values : List ℤ} {m : ℤ} (h : ∀ x ∈ values, x ≤ m) :
    values.sum ≤ values.length * m := by
  induction values with
  | nil => simp
  | cons x values ih =>
      have hx := h x List.mem_cons_self
      have hrest := ih fun y hy => h y (List.mem_cons_of_mem x hy)
      rw [List.sum_cons, List.length_cons]
      push_cast
      linarith

section

variable {dailyTotal : ℤ} {dailyHours : List ℤ} (hlen : dailyHours.length = 24)
  (hnonneg : ∀ hour ∈ dailyHours, 0 ≤ hour)

include hlen

theorem exists_max : ∃ m, reduceMax dailyHours = some m ∧ m ∈ dailyHours
    ∧ ∀ hour ∈ dailyHours, hour ≤ m := by
  apply reduceMax_spec
  rintro rfl
  simp at hlen

include hnonneg

/-- The line has the hours for its values. -/
theorem mainData_spec : ∃ line, mainData dailyHours = some line
    ∧ line.area = dailyHours.sum ∧ line.Fits := by
  obtain ⟨m, hm, -, hmax⟩ := exists_max hlen
  have hspots := generate_eq (fun index (hour : ℤ) => ((index : ℚ), (hour : ℚ))) hlen
  rw [mainData, hm, Option.bind_some, hspots, Option.map_some]
  refine ⟨_, rfl, ?_, fun spot hspot => ?_⟩
  · have hvalues := map_getD_range dailyHours
    rw [hlen] at hvalues
    rw [LineChartData.area, ← sum_cast, List.map_map]
    nth_rewrite 2 [← hvalues]
    rw [List.map_map]
    rfl
  · obtain ⟨i, hi, rfl⟩ := List.mem_map.mp hspot
    have hlt : i < dailyHours.length := hlen ▸ List.mem_range.mp hi
    have hentry : dailyHours.getD i 0 ∈ dailyHours := by
      rw [List.getD_eq_getElem _ _ hlt]
      exact List.getElem_mem hlt
    have hle : (dailyHours.getD i 0 : ℚ) ≤ m := by exact_mod_cast hmax _ hentry
    have hpos : (0 : ℚ) ≤ (dailyHours.getD i 0 : ℚ) := by exact_mod_cast hnonneg _ hentry
    exact ⟨hpos, hle.trans (le_ceilToTen m)⟩

/-- The average has the same area, and is no higher than the largest hour. -/
theorem avgData_spec (htotal : dailyHours.sum = dailyTotal) :
    ∃ avg, avgData dailyTotal dailyHours = some avg ∧ avg.area = dailyTotal ∧ avg.Fits := by
  obtain ⟨m, hm, -, hmax⟩ := exists_max hlen
  rw [avgData, hm, Option.map_some]
  refine ⟨_, rfl, ?_, fun spot hspot => ?_⟩
  · have hconst : ((List.range 24).map fun index : ℕ => ((index : ℚ), (dailyTotal : ℚ) / 24)).map
        (·.2) = List.replicate 24 ((dailyTotal : ℚ) / 24) := by
      rw [List.map_map]
      exact List.map_const' ..
    rw [LineChartData.area, hconst, List.sum_replicate, nsmul_eq_mul]
    push_cast
    ring
  · -- the average is no more than the largest hour
    obtain ⟨i, -, rfl⟩ := List.mem_map.mp hspot
    have htop := le_ceilToTen m
    have hsum : (dailyTotal : ℚ) ≤ 24 * m := by
      have hle := sum_le_length_mul hmax
      rw [hlen, htotal] at hle
      exact_mod_cast hle
    have hpos : (0 : ℚ) ≤ dailyTotal := by
      rw [← htotal]
      exact_mod_cast List.sum_nonneg hnonneg
    constructor
    · show (0 : ℚ) ≤ dailyTotal / 24
      linarith
    · show (dailyTotal : ℚ) / 24 ≤ ceilToTen m
      linarith

end

/-! ## What the bar chart shows -/

theorem toY_eq (weekHours : List ℤ) : ∃ toY, (weekHours ≠ [] → backDraw weekHours = some toY)
    ∧ ∀ hours ∈ weekHours, (hours : ℚ) ≤ toY := by
  unfold backDraw
  by_cases hzero : weekHours = List.replicate 7 0
  · -- a week without a session has a background of its own
    refine ⟨200, fun _ => if_pos hzero, fun hours hhours => ?_⟩
    rw [hzero] at hhours
    rw [List.eq_of_mem_replicate hhours]
    norm_num
  · rw [if_neg hzero]
    by_cases hnil : weekHours = []
    · exact ⟨0, fun hne => absurd hnil hne, fun hours hhours => by simp [hnil] at hhours⟩
    · obtain ⟨m, hm, -, hmax⟩ := reduceMax_spec hnil
      refine ⟨ceilToTen m, fun _ => by rw [hm, Option.map_some], fun hours hhours => ?_⟩
      have hle : (hours : ℚ) ≤ m := by exact_mod_cast hmax hours hhours
      exact hle.trans (le_ceilToTen m)

/-- There is a bar for each day, before a background that is as high at least. -/
theorem showingGroups_spec {weekHours : List ℤ} (hlen : weekHours.length = 7) :
    ∃ toY, showingGroups weekHours = some (weekHours.map fun hours : ℤ => ((hours : ℚ), toY))
      ∧ ∀ hours ∈ weekHours, (hours : ℚ) ≤ toY := by
  obtain ⟨toY, htoY, hle⟩ := toY_eq weekHours
  have hne : weekHours ≠ [] := by
    rintro rfl
    simp at hlen
  refine ⟨toY, ?_, hle⟩
  have hbars := generate_eq (fun _ (hours : ℤ) => ((hours : ℚ), toY)) hlen
  rw [showingGroups, htoY hne, Option.bind_some, hbars]
  have hvalues := map_getD_range weekHours
  rw [hlen] at hvalues
  nth_rewrite 2 [← hvalues]
  rw [List.map_map]
  rfl

/-! ## Sessions within an hour -/

/-- A session that lies within a clock hour of the day it is saved on, and counts
for as long as it took. -/
structure Plain (z : Zone) (call : FocusTime.Call) : Prop where
  onOneDay : call.OnOneDay z
  withinHour : ∃ hour, AtHour z call.startTime hour ∧ AtHour z call.endTime hour
  duration_eq : call.duration = call.diffInt

/-- What the calls for a day add up to. -/
def recorded (z : Zone) (calls : List FocusTime.Call) (day : Date) : ℤ :=
  ((calls.filter (formatDate z ·.caller = day)).map (·.duration)).sum

/-- The record of a day holds its time twice, and hour by hour the same. -/
structure Balanced (record : Collection) : Prop where
  dated : FocusTime.Dated record
  nonneg : ∀ day i, 0 ≤ FocusSaves.hoursOf record day i
  sum_hours : ∀ day, ∑ i, FocusSaves.hoursOf record day i = FocusTime.getTimeOfTheDay record day

theorem balanced_nil : Balanced [] where
  dated _ hp := absurd hp List.not_mem_nil
  nonneg _ _ := le_refl 0
  sum_hours _ := Finset.sum_const_zero

section

variable {z : Zone} {record : Collection} {call : FocusTime.Call}

/-- The document a call leaves, and those it leaves alone. -/
theorem lookup_saveFocusTime (z : Zone) (record : Collection) (call : FocusTime.Call) :
    ∃ doc, doc.totalTime
        = FocusTime.getTimeOfTheDay record (formatDate z call.caller) + call.duration
      ∧ doc.hours
        = call.hoursAfter z (FocusTime.getHoursList z record call.readings.getListForHours)
      ∧ ∀ day, (FocusTime.saveFocusTime z record call).lookup day
        = if day = formatDate z call.caller then some doc else record.lookup day := by
  let hours := call.hoursAfter z (FocusTime.getHoursList z record call.readings.getListForHours)
  cases hdoc : record.lookup (formatDate z call.caller) with
  | some doc =>
      refine ⟨call.update hours doc, ?_, rfl, fun day => ?_⟩
      · rw [FocusTime.getTimeOfTheDay, hdoc]
        rfl
      · rw [FocusTime.saveFocusTime_of_some hdoc, FocusTime.lookup_set]
  | none =>
      refine ⟨call.newDoc z hours, ?_, rfl, fun day => ?_⟩
      · rw [FocusTime.getTimeOfTheDay, hdoc]
        exact (zero_add call.duration).symm
      · rw [FocusTime.saveFocusTime_of_none hdoc, FocusTime.lookup_set]

/-- The total of the call's day grows by its duration. -/
theorem getTimeOfTheDay_save (z : Zone) (record : Collection) (call : FocusTime.Call) (day : Date) :
    FocusTime.getTimeOfTheDay (FocusTime.saveFocusTime z record call) day
      = FocusTime.getTimeOfTheDay record day
        + if formatDate z call.caller = day then call.duration else 0 := by
  obtain ⟨doc, htotal, -, hlookup⟩ := lookup_saveFocusTime z record call
  rw [FocusTime.getTimeOfTheDay, hlookup]
  by_cases hday : formatDate z call.caller = day
  · rw [if_pos hday, if_pos hday.symm, ← hday]
    exact htotal
  · rw [if_neg hday, if_neg (Ne.symm hday), add_zero]
    rfl

/-- So does one of its hours, by as much. -/
theorem hoursOf_save (record : Collection) (h : Plain z call) : ∃ hour, ∀ day i,
    FocusSaves.hoursOf (FocusTime.saveFocusTime z record call) day i
      = FocusSaves.hoursOf record day i
        + if formatDate z call.caller = day ∧ hour = i then call.duration else 0 := by
  obtain ⟨hour, hstart, hend⟩ := h.withinHour
  obtain ⟨doc, -, hhours, hlookup⟩ := lookup_saveFocusTime z record call
  refine ⟨hour, fun day i => ?_⟩
  rw [FocusSaves.hoursOf, hlookup]
  by_cases hday : formatDate z call.caller = day
  · -- the hours it has read are those of the day it writes
    have hread : (FocusTime.getHoursList z record call.readings.getListForHours).getD (fun _ => 0)
        = FocusSaves.hoursOf record day := by
      rw [FocusSaves.getHoursList_getD, h.onOneDay.1, hday]
    rw [if_pos hday.symm, Option.map_some, Option.getD_some, hhours,
      FocusTime.Call.hoursAfter_of_atHour hstart hend, FocusTime.Hours.add_apply, hread,
      ← h.duration_eq]
    simp only [hday, true_and]
  · rw [if_neg (Ne.symm hday), if_neg fun hboth => hday hboth.1, add_zero]
    rfl

/-- A plain session keeps the balance. -/
theorem Balanced.save (hbal : Balanced record) (h : Plain z call) :
    Balanced (FocusTime.saveFocusTime z record call) := by
  obtain ⟨hour, hhours⟩ := hoursOf_save record h
  have hday : FocusTime.SameDay z record call := by
    unfold FocusTime.SameDay
    split
    · exact h.onOneDay.1
    · exact h.onOneDay.2
  refine ⟨(FocusTime.save_sound hbal.dated hday).1, fun day i => ?_, fun day => ?_⟩
  · rw [hhours]
    have hduration := call.duration_nonneg
    have hold := hbal.nonneg day i
    split
    · exact Int.add_nonneg hold hduration
    · rwa [add_zero]
  · rw [Finset.sum_congr rfl fun i _ => hhours day i, Finset.sum_add_distrib, hbal.sum_hours,
      getTimeOfTheDay_save]
    congr 1
    by_cases hcaller : formatDate z call.caller = day
    · simp only [hcaller, true_and, if_true]
      rw [Finset.sum_ite_eq, if_pos (Finset.mem_univ hour)]
    · -- another day's hours stay as they are
      rw [if_neg hcaller]
      exact Finset.sum_eq_zero fun i _ => if_neg fun hboth => hcaller hboth.1

end

/-- What the record holds of a run: every day's calls. -/
theorem balanced_run {z : Zone} {calls : List FocusTime.Call}
    (hcalls : ∀ call ∈ calls, Plain z call) {record : Collection}
    (hrun : run (FocusTime.step z) [] calls = some record) :
    Balanced record
      ∧ ∀ day, FocusTime.getTimeOfTheDay record day = recorded z calls day := by
  -- over any record to begin with, for the induction on the calls
  suffices hloop : ∀ (calls : List FocusTime.Call) (record₀ : Collection),
      (∀ call ∈ calls, Plain z call) → Balanced record₀ →
      run (FocusTime.step z) record₀ calls = some record →
      Balanced record ∧ ∀ day, FocusTime.getTimeOfTheDay record day
        = FocusTime.getTimeOfTheDay record₀ day + recorded z calls day by
    obtain ⟨hbal, htotal⟩ := hloop calls [] hcalls balanced_nil hrun
    exact ⟨hbal, fun day => (htotal day).trans (zero_add _)⟩
  intro calls
  induction calls with
  | nil =>
      intro record₀ _ hbal hrun
      rw [run_nil, Option.some.injEq] at hrun
      rw [← hrun]
      exact ⟨hbal, fun day => (add_zero _).symm⟩
  | cons call calls ih =>
      intro record₀ hcalls hbal hrun
      have hfirst := hcalls call List.mem_cons_self
      rw [run_cons] at hrun
      obtain ⟨hbal', htotal⟩ := ih _ (fun c hc => hcalls c (List.mem_cons_of_mem call hc))
        (hbal.save hfirst) hrun
      refine ⟨hbal', fun day => ?_⟩
      rw [htotal, getTimeOfTheDay_save, recorded, recorded, List.filter_cons]
      by_cases hday : formatDate z call.caller = day
      · rw [if_pos hday, if_pos (by simpa using hday), List.map_cons, List.sum_cons, add_assoc]
      · rw [if_neg hday, if_neg (by simpa using hday), add_zero]

/-! ## What the charts show -/

/-- The charts of the user page, of what the calls have recorded: the two lines of
today have its time below them, the bars are the days of this week, and the map has
a day's time at its midnight. -/
structure Shows (z : Zone) (docs : Docs) (calls : List FocusTime.Call) (now : DateTime) : Prop where
  lines : ∀ showAvg, ∃ chart, lineChartWidget z docs now showAvg = some chart
    ∧ chart.area = recorded z calls (formatDate z now) ∧ chart.Fits
  bars : ∃ rods, barChartWidget z docs now = some rods ∧ rods.length = 7
    ∧ (∀ rod ∈ rods, rod.1 ≤ rod.2)
    ∧ ∀ i : ℕ, i < 7 → ∀ t : DateTime,
        t.epochDay z = now.epochDay z - (now.weekday z - 1) + i →
        rods[i]?.map (·.1) = some (recorded z calls (formatDate z t) : ℚ)
  heatMap : ∃ mapInput, FocusStore.heatMapData z docs = some mapInput
    ∧ ∀ t : DateTime, (mapInput (t.midnight z)).getD 0 = recorded z calls (formatDate z t)

theorem initData_spec : initData.area = 0 ∧ initData.Fits := by
  have hconst : initData.spots.map (·.2) = List.replicate 24 0 := by
    rw [initData, List.map_map]
    exact List.map_const' ..
  refine ⟨?_, fun spot hspot => ?_⟩
  · rw [LineChartData.area, hconst, List.sum_replicate, nsmul_zero]
  · have hvalue : spot.2 ∈ List.replicate 24 (0 : ℚ) := hconst ▸ List.mem_map_of_mem hspot
    rw [List.eq_of_mem_replicate hvalue]
    change (0 : ℚ) ≤ 0 ∧ (0 : ℚ) ≤ 200
    norm_num

/-- The lines of a list that has the total for its sum, or of none. -/
theorem lineChart_spec {dailyTotal : ℤ} {dailyHours : List ℤ}
    (hlen : dailyHours = [] ∨ dailyHours.length = 24) (hnonneg : ∀ hour ∈ dailyHours, 0 ≤ hour)
    (htotal : dailyHours.sum = dailyTotal) (showAvg : Bool) :
    ∃ chart, lineChart dailyTotal dailyHours showAvg = some chart ∧ chart.area = dailyTotal
      ∧ chart.Fits := by
  rcases hlen with rfl | hlen
  · -- no document of the day: the flat line
    obtain ⟨harea, hfits⟩ := initData_spec
    refine ⟨initData, rfl, ?_, hfits⟩
    rw [harea, ← htotal, List.sum_nil, Int.cast_zero]
  · have hne : dailyHours.isEmpty = false := by
      rw [List.isEmpty_eq_false_iff]
      rintro rfl
      simp at hlen
    rw [lineChart, hne, if_neg Bool.false_ne_true]
    cases showAvg with
    | true => exact avgData_spec hlen hnonneg htotal
    | false => exact htotal ▸ mainData_spec hlen hnonneg

section

variable {offset : UtcOffset} {calls : List FocusTime.Call} {record : Collection} {now : DateTime}

theorem lines_of_reads {z : Zone} {docs : Docs} (hreads : FocusStore.Reads z docs record)
    (hbal : Balanced record) (hyear : 0 ≤ now.year z) (hyear' : now.year z ≤ 9999)
    (showAvg : Bool) :
    ∃ chart, lineChartWidget z docs now showAvg = some chart
      ∧ chart.area = FocusTime.getTimeOfTheDay record (formatDate z now) ∧ chart.Fits := by
  simp only [lineChartWidget]
  rw [hreads.timeOfTheDay now hyear hyear', hreads.timeOfTheHours now hyear hyear']
  have hsum := hbal.sum_hours (formatDate z now)
  have hnonneg := hbal.nonneg (formatDate z now)
  unfold FocusSaves.hoursOf at hsum hnonneg
  unfold FocusTime.getHoursList
  cases hdoc : record.lookup (formatDate z now) with
  | none =>
      rw [hdoc] at hsum
      apply lineChart_spec (.inl rfl) fun hour hhour => absurd hhour List.not_mem_nil
      rw [← hsum]
      exact Finset.sum_const_zero.symm
  | some doc =>
      rw [hdoc] at hsum hnonneg
      apply lineChart_spec (.inr List.length_ofFn)
      · intro hour hhour
        obtain ⟨i, rfl⟩ := (List.mem_ofFn' _ _).mp hhour
        exact hnonneg i
      · rw [← hsum]
        exact List.sum_ofFn

theorem bars_of_reads {docs : Docs} (hreads : FocusStore.Reads (.fixed offset) docs record)
    (hutc : now.isUtc = false) (hyear : 1001 ≤ now.year (.fixed offset))
    (hyear' : now.year (.fixed offset) ≤ 9998) :
    ∃ rods, barChartWidget (.fixed offset) docs now = some rods ∧ rods.length = 7
      ∧ (∀ rod ∈ rods, rod.1 ≤ rod.2)
      ∧ ∀ i : ℕ, i < 7 → ∀ t : DateTime,
          t.epochDay (.fixed offset)
            = now.epochDay (.fixed offset) - (now.weekday (.fixed offset) - 1) + i →
          rods[i]?.map (·.1)
            = some (FocusTime.getTimeOfTheDay record (formatDate (.fixed offset) t) : ℚ) := by
  have hlen :
      ((weekKeys (.fixed offset) now).map (FocusStore.getTimeOfTheDay docs)).length = 7 := by
    rw [WeeklyChart.weekKeys_eq offset hutc, List.length_map, List.length_map, List.length_range]
  obtain ⟨toY, hbars, hle⟩ := showingGroups_spec hlen
  refine ⟨_, hbars, by rw [List.length_map, hlen], fun rod hrod => ?_, fun i hi t ht => ?_⟩
  · obtain ⟨hours, hhours, rfl⟩ := List.mem_map.mp hrod
    exact hle hours hhours
  · have hwd := Civil.weekdayOf_bounds (now.epochDay (.fixed offset))
    have hweekday : now.weekday (.fixed offset)
        = Civil.weekdayOf (now.epochDay (.fixed offset)) := rfl
    -- the week may lie in two years
    have hlo : Civil.yearOf (now.epochDay (.fixed offset)) - 1
        ≤ Civil.yearOf (t.epochDay (.fixed offset)) := Civil.yearOf_le (by omega)
    have hhi : Civil.yearOf (t.epochDay (.fixed offset)) - 1
        ≤ Civil.yearOf (now.epochDay (.fixed offset)) := Civil.yearOf_le (by omega)
    unfold DateTime.year at hyear hyear'
    have htime := hreads.timeOfTheDay t (by unfold DateTime.year; omega)
      (by unfold DateTime.year; omega)
    rw [List.getElem?_map, List.getElem?_map, WeeklyChart.weekKeys_getElem offset hutc hyear hi ht,
      Option.map_some, Option.map_some, Option.map_some, htime]

end

end AquaFocus.FocusCharts
