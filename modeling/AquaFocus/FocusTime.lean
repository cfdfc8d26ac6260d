/-
The focus record: `saveFocusTime` and its readers, of
`lib/services/database_services.dart`.

A day's document is stored under its date and holds the time of the day, hour by
hour and in all, and its date once more. One call of `saveFocusTime` reads the
clock up to eight times, its caller once before it, and the readings may fall on
both sides of a midnight. `saves_sound` says which of them have to fall on the
caller's day for the record of a day to hold that day only.
-/
import AquaFocus.CountDownHelper
import AquaFocus.Lib.Runs
import Mathlib.Data.List.FinRange
import Mathlib.Logic.Function.Basic

set_option autoImplicit false

open Dart Runs

namespace AquaFocus.FocusTime

/-! ## Documents -/

/-- What `DateFormat('yyyy-MM-dd')` writes of a date, as its three numbers;
`DateTime.parse` reads the same three back. -/
structure Date where
  year : ℤ
  month : ℤ
  day : ℤ
deriving DecidableEq

def formatDate (z : Zone) (t : DateTime) : Date := ⟨t.year z, t.month z, t.day z⟩

/-- The twenty-four entries of a list of hours. -/
abbrev Hours : Type := Fin 24 → ℤ

/-- `hours[i] = hours[i] + n`. -/
def Hours.add (hours : Hours) (i : Fin 24) (n : ℤ) : Hours :=
  Function.update hours i (hours i + n)

/-- A document of the collection `users/<uid>/FocusTime`. -/
structure FocusDoc where
  totalTime : ℤ
  date : Date
  hours : Hours

/-- The collection, under the ids of its documents. -/
abbrev Collection : Type := List (Date × FocusDoc)

/-- `doc(date).set`. -/
def Collection.set (docs : Collection) (date : Date) (doc : FocusDoc) : Collection :=
  (date, doc) :: docs.filter (·.1 ≠ date)

/-! ## Readings of the clock -/

/-- What `DateTime.now()` reads in one call of `saveFocusTime`, in the order of
the calls. The six in the middle are made for a session over several hours. -/
structure Readings where
  getListForHours : DateTime
  startYear : DateTime
  startMonth : DateTime
  startDay : DateTime
  endYear : DateTime
  endMonth : DateTime
  endDay : DateTime
  dateField : DateTime

def Readings.toList (r : Readings) : List DateTime :=
  [r.getListForHours, r.startYear, r.startMonth, r.startDay, r.endYear, r.endMonth, r.endDay,
    r.dateField]

/-- A call as the timers make it: the caller formats the date from a reading of
its own, and the clock does not go back. -/
structure Call where
  duration : ℤ
  caller : DateTime
  startTime : DateTime
  endTime : DateTime
  readings : Readings
  duration_nonneg : 0 ≤ duration
  start_le_end : startTime.microsecondsSinceEpoch ≤ endTime.microsecondsSinceEpoch
  inOrder : (caller :: readings.toList).Pairwise
    fun t u => t.microsecondsSinceEpoch ≤ u.microsecondsSinceEpoch

/-! ## `saveFocusTime` -/

/-- `timeString`'s total of a difference. -/
def differenceInt (t u : DateTime) : ℤ := (timeString (inSeconds (t.difference u))).total

/-- `diffInt`. -/
def Call.diffInt (call : Call) : ℤ := differenceInt call.endTime call.startTime

/-- `i == t.hour`. -/
def AtHour (z : Zone) (t : DateTime) (i : Fin 24) : Prop := (i.val : ℤ) = t.hour z

instance (z : Zone) (t : DateTime) (i : Fin 24) : Decidable (AtHour z t i) :=
  inferInstanceAs (Decidable ((i.val : ℤ) = t.hour z))

/-- The loop of the second branch, over the list that was read. -/
def Call.added (z : Zone) (call : Call) (hours : Hours) : Hours :=
  (List.finRange 24).foldl (fun hours i =>
    if AtHour z call.startTime i ∧ AtHour z call.endTime i then
      hours.add i call.diffInt
    else hours) hours

/-- The two inner loops of the first branch, from the hour `i` of the start on. -/
def Call.spread (z : Zone) (call : Call) (i : Fin 24) (hours : Hours) : Hours :=
  (List.finRange 24).foldl (fun hours j =>
    if AtHour z call.endTime j then
      let startOfHour := DateTime.ofFields z (call.readings.endYear.year z)
        (call.readings.endMonth.month z) (call.readings.endDay.day z) j.val 0
      ((List.finRange 24).filter fun k => i < k ∧ k < j).foldl (fun hours k => hours.add k 60)
        (hours.add j (differenceInt call.endTime startOfHour))
    else hours) hours

/-- The first branch, for a list that was empty. -/
def Call.generated (z : Zone) (call : Call) : Hours :=
  (List.finRange 24).foldl (fun hours i =>
    if AtHour z call.startTime i ∧ AtHour z call.endTime i then
      hours.add i call.diffInt
    else if AtHour z call.startTime i ∧ ¬ AtHour z call.endTime i then
      let endOfHour := DateTime.ofFields z (call.readings.startYear.year z)
        (call.readings.startMonth.month z) (call.readings.startDay.day z) (i.val + 1) 0
      call.spread z i (hours.add i (differenceInt endOfHour call.startTime))
    else hours) fun _ => 0

/-- The list a call writes, having read `hours`; `none` is the empty list. -/
def Call.hoursAfter (z : Zone) (call : Call) : Option Hours → Hours
  | none => call.generated z
  | some hours => call.added z hours

/-- `getHoursList`, of the day the clock reads. -/
def getHoursList (z : Zone) (docs : Collection) (now : DateTime) : Option Hours :=
  (docs.lookup (formatDate z now)).map (·.hours)

/-- The update of a document that exists. -/
def Call.update (call : Call) (hours : Hours) (doc : FocusDoc) : FocusDoc :=
  { doc with totalTime := doc.totalTime + call.duration, hours := hours }

/-- The document set where there is none. -/
def Call.newDoc (z : Zone) (call : Call) (hours : Hours) : FocusDoc where
  totalTime := call.duration
  date := formatDate z call.readings.dateField
  hours := hours

/-- `saveFocusTime`, when nothing comes between its steps. -/
def saveFocusTime (z : Zone) (docs : Collection) (call : Call) : Collection :=
  let date := formatDate z call.caller
  let hours := call.hoursAfter z (getHoursList z docs call.readings.getListForHours)
  match docs.lookup date with
  | some doc => docs.set date (call.update hours doc)
  | none => docs.set date (call.newDoc z hours)

/-- `getTimeOfTheDay`. -/
def getTimeOfTheDay (docs : Collection) (day : Date) : ℤ :=
  ((docs.lookup day).map (·.totalTime)).getD 0

/-- `heatMapData`: the first document with a date gives that date its time. -/
def heatMapData (docs : Collection) : Date → Option ℤ :=
  docs.foldl (fun mapInput doc =>
    if (mapInput doc.2.date).isSome then mapInput
    else Function.update mapInput doc.2.date (some doc.2.totalTime)) fun _ => none

/-! ## The collection -/

theorem lookup_cons (p : Date × FocusDoc) (docs : Collection) (day : Date) :
    List.lookup day (p :: docs) = if day = p.1 then some p.2 else docs.lookup day := by
  rw [List.lookup_cons]
  by_cases hday : day = p.1
  · simp [hday]
  · have hbeq : (day == p.1) = false := beq_eq_false_iff_ne.mpr hday
    rw [hbeq, if_neg hday]

theorem lookup_filter_ne {date day : Date} (hne : day ≠ date) (docs : Collection) :
    (docs.filter (·.1 ≠ date)).lookup day = docs.lookup day := by
  induction docs with
  | nil => rfl
  | cons p docs ih =>
      by_cases hid : p.1 = date
      · rw [List.filter_cons_of_neg (by simp [hid]), ih, lookup_cons, hid, if_neg hne]
      · rw [List.filter_cons_of_pos (by simp [hid]), lookup_cons, lookup_cons, ih]

theorem lookup_set (docs : Collection) (date day : Date) (doc : FocusDoc) :
    (docs.set date doc).lookup day = if day = date then some doc else docs.lookup day := by
  rw [Collection.set, lookup_cons]
  by_cases hday : day = date
  · rw [if_pos hday, if_pos hday]
  · rw [if_neg hday, if_neg hday, lookup_filter_ne hday]

/-- Every document carries the date it is stored under. -/
def Dated (docs : Collection) : Prop := ∀ p ∈ docs, p.2.date = p.1

theorem mem_of_lookup {docs : Collection} {date : Date} {doc : FocusDoc}
    (h : docs.lookup date = some doc) : (date, doc) ∈ docs := by
  obtain ⟨l₁, l₂, rfl, -⟩ := List.lookup_eq_some_iff.mp h
  simp

theorem lookup_eq_some_iff {docs : Collection} (h : (docs.map (·.1)).Nodup) {date : Date}
    {doc : FocusDoc} : docs.lookup date = some doc ↔ (date, doc) ∈ docs := by
  refine ⟨mem_of_lookup, fun hmem => ?_⟩
  induction docs with
  | nil => exact absurd hmem List.not_mem_nil
  | cons p docs ih =>
      rw [List.map_cons, List.nodup_cons] at h
      rw [lookup_cons]
      rcases List.mem_cons.mp hmem with rfl | hmem
      · rw [if_pos rfl]
      · -- the first document is of another day
        have hne : date ≠ p.1 := fun heq => h.1 (heq ▸ List.mem_map_of_mem hmem)
        rw [if_neg hne, ih h.2 hmem]

theorem Dated.set {docs : Collection} (h : Dated docs) {date : Date} {doc : FocusDoc}
    (hdoc : doc.date = date) : Dated (docs.set date doc) := by
  intro p hp
  rcases List.mem_cons.mp hp with rfl | hp
  · exact hdoc
  · exact h p (List.mem_filter.mp hp).1

/-! ## The heat map -/

theorem heatMap_foldl (docs : Collection) (mapInput : Date → Option ℤ) (day : Date) :
    docs.foldl (fun mapInput doc =>
        if (mapInput doc.2.date).isSome then mapInput
        else Function.update mapInput doc.2.date (some doc.2.totalTime)) mapInput day
      = (mapInput day).or ((docs.find? (·.2.date = day)).map (·.2.totalTime)) := by
  induction docs generalizing mapInput with
  | nil => simp
  | cons p docs ih =>
      rw [List.foldl_cons, ih]
      by_cases hday : p.2.date = day
      · -- the first document with the date, unless the map has the date already
        rw [List.find?_cons_of_pos (by simpa using hday), hday]
        cases hm : mapInput day with
        | none => simp
        | some t => simp [hm]
      · rw [List.find?_cons_of_neg (by simpa using hday)]
        have hkeep : (if (mapInput p.2.date).isSome then mapInput
            else Function.update mapInput p.2.date (some p.2.totalTime)) day = mapInput day := by
          split
          · rfl
          · exact Function.update_of_ne (Ne.symm hday) ..
        rw [hkeep]

theorem Dated.find? {docs : Collection} (h : Dated docs) (day : Date) :
    (docs.find? (·.2.date = day)).map (·.2.totalTime) = (docs.lookup day).map (·.totalTime) := by
  induction docs with
  | nil => rfl
  | cons p docs ih =>
      have hp : p.2.date = p.1 := h p List.mem_cons_self
      have hrest : Dated docs := fun q hq => h q (List.mem_cons_of_mem p hq)
      rw [lookup_cons]
      by_cases hday : p.1 = day
      · rw [List.find?_cons_of_pos (by simpa [hp] using hday), if_pos hday.symm]
        rfl
      · rw [List.find?_cons_of_neg (by simpa [hp] using hday), if_neg (Ne.symm hday), ih hrest]

/-- Each day's document is the record of that day, for its readers too. -/
structure Sound (docs : Collection) : Prop where
  dated : Dated docs
  heatMap : ∀ day, heatMapData docs day
    = if (docs.lookup day).isSome then some (getTimeOfTheDay docs day) else none

theorem Dated.sound {docs : Collection} (h : Dated docs) : Sound docs := by
  refine ⟨h, fun day => ?_⟩
  rw [heatMapData, heatMap_foldl, Option.none_or, h.find?, getTimeOfTheDay]
  cases docs.lookup day <;> rfl

/-! ## One call -/

theorem Hours.le_add (hours : Hours) (i : Fin 24) {n : ℤ} (hn : 0 ≤ n) :
    hours ≤ hours.add i n := by
  intro j
  unfold Hours.add
  by_cases hj : j = i
  · rw [hj, Function.update_self]
    exact le_add_of_nonneg_right hn
  · rw [Function.update_of_ne hj]

theorem Hours.add_apply (hours : Hours) (i : Fin 24) (n : ℤ) (j : Fin 24) :
    hours.add i n j = hours j + if i = j then n else 0 := by
  unfold Hours.add
  by_cases hij : i = j
  · rw [if_pos hij, hij, Function.update_self]
  · rw [if_neg hij, Function.update_of_ne (Ne.symm hij), add_zero]

/-- A loop that only adds does not lower an entry. -/
theorem le_foldl {α : Type} (l : List α) (f : Hours → α → Hours) (h : ∀ hours a, hours ≤ f hours a)
    (hours : Hours) : hours ≤ l.foldl f hours := by
  induction l generalizing hours with
  | nil => exact le_refl hours
  | cons a l ih => exact (h hours a).trans (ih (f hours a))

theorem Call.inSeconds_nonneg (call : Call) :
    0 ≤ inSeconds (call.endTime.difference call.startTime) := by
  have hle := call.start_le_end
  have hdiff : 0 ≤ call.endTime.difference call.startTime := by
    unfold DateTime.difference
    omega
  unfold inSeconds
  exact Int.tdiv_nonneg hdiff (by decide)

theorem Call.diffInt_nonneg (call : Call) : 0 ≤ call.diffInt :=
  total_nonneg call.inSeconds_nonneg

theorem Call.le_added (z : Zone) (call : Call) (hours : Hours) : hours ≤ call.added z hours := by
  apply le_foldl
  intro hours i
  split
  · exact hours.le_add i call.diffInt_nonneg
  · exact le_refl hours

/-- No entry of a document has become less. -/
def Kept (docs docs' : Collection) : Prop :=
  ∀ date doc, docs.lookup date = some doc →
    ∃ doc', docs'.lookup date = some doc' ∧ doc.hours ≤ doc'.hours

/-- The readings that count fall on the caller's day: that of `getListForHours`
where the day has a document, and that of the `Date` field where it has none. -/
def SameDay (z : Zone) (docs : Collection) (call : Call) : Prop :=
  if (docs.lookup (formatDate z call.caller)).isSome then
    formatDate z call.readings.getListForHours = formatDate z call.caller
  else formatDate z call.readings.dateField = formatDate z call.caller

variable {z : Zone} {docs : Collection} {call : Call}

theorem saveFocusTime_of_some {doc : FocusDoc}
    (hdoc : docs.lookup (formatDate z call.caller) = some doc) :
    saveFocusTime z docs call = docs.set (formatDate z call.caller)
      (call.update (call.hoursAfter z (getHoursList z docs call.readings.getListForHours))
        doc) := by
  rw [saveFocusTime, hdoc]

theorem saveFocusTime_of_none (hdoc : docs.lookup (formatDate z call.caller) = none) :
    saveFocusTime z docs call = docs.set (formatDate z call.caller)
      (call.newDoc z (call.hoursAfter z
        (getHoursList z docs call.readings.getListForHours))) := by
  rw [saveFocusTime, hdoc]

/-- A call whose readings that count fall on one day keeps the record. -/
theorem save_sound (h : Dated docs) (hday : SameDay z docs call) :
    Dated (saveFocusTime z docs call) ∧ Kept docs (saveFocusTime z docs call) := by
  unfold SameDay at hday
  cases hdoc : docs.lookup (formatDate z call.caller) with
  | some doc =>
      rw [hdoc, Option.isSome_some, if_pos rfl] at hday
      rw [saveFocusTime_of_some hdoc]
      refine ⟨h.set (h _ (mem_of_lookup hdoc)), fun date old hold => ?_⟩
      by_cases hdate : date = formatDate z call.caller
      · -- the list that was read is the one that is written over
        subst hdate
        rw [hdoc, Option.some.injEq] at hold
        have hread : getHoursList z docs call.readings.getListForHours = some old.hours := by
          rw [getHoursList, hday, hdoc, hold]
          rfl
        refine ⟨_, by rw [lookup_set, if_pos rfl], ?_⟩
        rw [hread]
        exact call.le_added z old.hours
      · exact ⟨old, by rw [lookup_set, if_neg hdate, hold], le_refl _⟩
  | none =>
      rw [hdoc, Option.isSome_none, if_neg (by simp)] at hday
      rw [saveFocusTime_of_none hdoc]
      refine ⟨h.set hday, fun date old hold => ?_⟩
      have hdate : date ≠ formatDate z call.caller := by
        rintro rfl
        rw [hdoc] at hold
        cases hold
      exact ⟨old, by rw [lookup_set, if_neg hdate, hold], le_refl _⟩

/-! ## Sessions within an hour -/

/-- A loop that acts at one index does what it does there. -/
theorem foldl_if_unique {α β : Type} {P : α → Prop} [DecidablePred P] (f : β → α → β) {a : α}
    (hP : ∀ x, P x ↔ x = a) {l : List α} (hl : l.Nodup) (ha : a ∈ l) (b : β) :
    l.foldl (fun b x => if P x then f b x else b) b = f b a := by
  -- past the index, and before it, nothing happens
  have hskip : ∀ (l : List α) (b : β), a ∉ l →
      l.foldl (fun b x => if P x then f b x else b) b = b := by
    intro l b hl
    induction l generalizing b with
    | nil => rfl
    | cons x l ih =>
        rw [List.mem_cons, not_or] at hl
        rw [List.foldl_cons, if_neg (fun hx => hl.1 ((hP x).mp hx).symm), ih _ hl.2]
  induction l generalizing b with
  | nil => exact absurd ha List.not_mem_nil
  | cons x l ih =>
      obtain ⟨hx, hl⟩ := List.nodup_cons.mp hl
      rw [List.foldl_cons]
      rcases List.mem_cons.mp ha with rfl | ha
      · rw [if_pos ((hP a).mpr rfl), hskip l _ hx]
      · have hne : ¬ P x := fun hPx => hx ((hP x).mp hPx ▸ ha)
        rw [if_neg hne, ih hl ha]

theorem atHour_iff {z : Zone} {t : DateTime} {h : Fin 24} (ht : AtHour z t h) (i : Fin 24) :
    AtHour z t i ↔ i = h := by
  unfold AtHour at *
  rw [← ht]
  constructor
  · intro hi
    exact Fin.ext (by exact_mod_cast hi)
  · intro hi
    rw [hi]

/-- A session within the hour `h` adds its length there, whichever list was read. -/
theorem Call.hoursAfter_of_atHour {z : Zone} {call : Call} {h : Fin 24}
    (hstart : AtHour z call.startTime h) (hend : AtHour z call.endTime h) (o : Option Hours) :
    call.hoursAfter z o = (o.getD fun _ => 0).add h call.diffInt := by
  have hboth : ∀ i, AtHour z call.startTime i ∧ AtHour z call.endTime i ↔ i = h := by
    intro i
    rw [atHour_iff hstart, atHour_iff hend, and_self_iff]
  have hloop := foldl_if_unique (fun hours i => Hours.add hours i call.diffInt) hboth
    (List.nodup_finRange 24) (List.mem_finRange h)
  cases o with
  | some hours => exact hloop hours
  | none =>
      -- the branch for a session over several hours is not taken
      have hbranch : call.generated z = call.added z fun _ => 0 := by
        unfold Call.generated Call.added
        congr 1
        funext hours i
        by_cases hi : AtHour z call.startTime i ∧ AtHour z call.endTime i
        · rw [if_pos hi, if_pos hi]
        · have hneither : ¬ (AtHour z call.startTime i ∧ ¬ AtHour z call.endTime i) := by
            rw [atHour_iff hstart, atHour_iff hend]
            exact fun hne => hne.2 hne.1
          rw [if_neg hi, if_neg hi, if_neg hneither]
      exact hbranch.trans (hloop _)

/-! ## Sequences of calls -/

/-- Calls one after the other. -/
def step (z : Zone) (docs : Collection) (call : Call) : Option Collection :=
  some (saveFocusTime z docs call)

/-- The readings `getListForHours` and the `Date` field are made from fall on the
caller's day. -/
def Call.OnOneDay (z : Zone) (call : Call) : Prop :=
  formatDate z call.readings.getListForHours = formatDate z call.caller
    ∧ formatDate z call.readings.dateField = formatDate z call.caller

/-- A call that reads two days spoils some record: one that is not there yet, by
its date, or one that is, by the list of another day. -/
theorem onOneDay_of_sound (h : ∀ docs, Dated docs →
    Dated (saveFocusTime z docs call) ∧ Kept docs (saveFocusTime z docs call)) :
    call.OnOneDay z := by
  constructor
  · by_contra hday
    -- a document of the caller's day alone, with more in each hour than is written
    let doc : FocusDoc := ⟨0, formatDate z call.caller, fun i => call.generated z i + 1⟩
    have hdated : Dated [(formatDate z call.caller, doc)] := by
      intro p hp
      rw [List.mem_singleton] at hp
      rw [hp]
    have hdoc : List.lookup (formatDate z call.caller) [(formatDate z call.caller, doc)]
        = some doc := by
      rw [lookup_cons, if_pos rfl]
    have hread : getHoursList z [(formatDate z call.caller, doc)]
        call.readings.getListForHours = none := by
      rw [getHoursList, lookup_cons, if_neg hday]
      rfl
    obtain ⟨doc', hdoc', hle⟩ := (h _ hdated).2 _ doc hdoc
    rw [saveFocusTime_of_some hdoc, lookup_set, if_pos rfl, hread, Option.some.injEq] at hdoc'
    have hzero : call.generated z 0 + 1 ≤ call.generated z 0 := by
      rw [← hdoc'] at hle
      exact hle 0
    omega
  · have hempty := (h [] (fun p hp => absurd hp List.not_mem_nil)).1
    rw [saveFocusTime_of_none rfl] at hempty
    exact hempty _ List.mem_cons_self

/-- **A day's record holds that day only**, in every sequence of calls whose
readings that count fall on the caller's day; and a call keeps every record
exactly when both of its readings do. -/
theorem saves_sound (z : Zone) :
    (∀ calls, Meets (step z) (SameDay z) [] calls →
        Always (step z) Sound [] calls
          ∧ Meets (step z) (fun docs call => Kept docs (saveFocusTime z docs call)) [] calls)
      ∧ ∀ call : Call, (∀ docs, Dated docs →
          Dated (saveFocusTime z docs call) ∧ Kept docs (saveFocusTime z docs call))
        ↔ call.OnOneDay z := by
  have hkeep : ∀ docs call docs', Dated docs → SameDay z docs call →
      step z docs call = some docs' → Dated docs' :=
    fun docs call docs' h hday hstep => Option.some.inj hstep ▸ (save_sound h hday).1
  have hnil : Dated [] := fun p hp => absurd hp List.not_mem_nil
  refine ⟨fun calls hmeets => ?_, fun call => ⟨onOneDay_of_sound, fun hday docs h => ?_⟩⟩
  · have halways := always_of_meets hkeep hnil hmeets
    refine ⟨fun pre hpre docs hdocs => (halways pre hpre docs hdocs).sound, ?_⟩
    intro pre call hpre docs docs' hdocs hstep
    have hdated := halways pre ((List.prefix_append pre [call]).trans hpre) docs hdocs
    exact (save_sound hdated (hmeets pre call hpre docs docs' hdocs hstep)).2
  · refine save_sound h ?_
    unfold SameDay
    split
    · exact hday.1
    · exact hday.2

/-! ## Over midnight

In UTC, on 1 June 2022 and a second into the day after. -/

def utc : Zone := .fixed .utc

/-- `s` seconds into 1 June. -/
def june (s : ℤ) : DateTime := .ofMicros (seconds (1654041600 + s))

/-- All readings of a call at once. -/
def Readings.at (t : DateTime) : Readings := ⟨t, t, t, t, t, t, t, t⟩

/-- Ten minutes at ten in the morning, saved as they end. -/
def morning : Call where
  duration := 600
  caller := june 36600
  startTime := june 36000
  endTime := june 36600
  readings := .at (june 36600)
  duration_nonneg := by decide
  start_le_end := by decide
  inOrder := by decide

/-- The last ten minutes of the day, saved as the day ends: the date is formatted
before midnight, and the clock read again after it. -/
def lateEvening : Call where
  duration := 599
  caller := june 86399
  startTime := june 85800
  endTime := june 86399
  readings := .at (june 86401)
  duration_nonneg := by decide
  start_le_end := by decide
  inOrder := by decide

/-- The evening's save clears the morning's entry; and alone, it stores under
1 June a document of 2 June, which is where the heat map shows it. -/
theorem not_saves_sound :
    (∃ docs doc doc', run (step utc) [] [morning] = some docs
        ∧ docs.lookup ⟨2022, 6, 1⟩ = some doc
        ∧ (saveFocusTime utc docs lateEvening).lookup ⟨2022, 6, 1⟩ = some doc'
        ∧ doc.hours 10 = 600 ∧ doc'.hours 10 = 0)
      ∧ ∃ docs, run (step utc) [] [lateEvening] = some docs
        ∧ heatMapData docs ⟨2022, 6, 2⟩ = some 599 ∧ getTimeOfTheDay docs ⟨2022, 6, 2⟩ = 0
        ∧ getTimeOfTheDay docs ⟨2022, 6, 1⟩ = 599 :=
  ⟨⟨_, _, _, rfl, rfl, rfl, rfl, rfl⟩, ⟨_, rfl, rfl, rfl, rfl⟩⟩

end AquaFocus.FocusTime
