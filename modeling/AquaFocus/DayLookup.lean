/-
`lib/screens/Tasks/task_utils.dart`: the tasks of a day.

`groupEvents` collects the tasks into lists under the UTC noon of their date, in
a map literal; `getEventsForDay` puts these lists into a map of its own whose
keys are told apart by `isSameDay`, and looks a day up there. The keys of the
first map are noons of different days, so the second one has the same entries,
and a day finds the list of its own noon (`getEventsForDay_eq_filter`).
-/
import AquaFocus.AppTask
import AquaFocus.Lib.LinkedMap
import Mathlib.Data.List.Induction

set_option autoImplicit false

open Dart LinkedMap

namespace AquaFocus

variable (z : Zone)

/-! ## Days as keys -/

/-- `isSameDay` of the calendar package. -/
def isSameDay (a b : Option DateTime) : Bool :=
  match a, b with
  | some a, some b =>
      decide (a.year z = b.year z) && decide (a.month z = b.month z) && decide (a.day z = b.day z)
  | _, _ => false

/-- `getHashCode`. -/
def getHashCode (key : DateTime) : ℤ := key.day z * 1000000 + key.month z * 10000 + key.year z

/-- The keys of a map made with `isSameDay` and `getHashCode`. -/
def sameKey : DateTime → DateTime → Bool :=
  hashed (fun a b => isSameDay z (some a) (some b)) (getHashCode z)

/-- The keys of a map literal: `DateTime.operator ==`. -/
def equalKey (a b : DateTime) : Bool := decide (a = b)

/-! ## Lookup -/

/-- One round of the loop of `groupEvents`. -/
def addToGroup (groupedEvents : List (DateTime × List AppTask)) (event : AppTask) :
    List (DateTime × List AppTask) :=
  let date := DateTime.utc (event.date.year z) (event.date.month z) (event.date.day z) 12
  let groupedEvents :=
    if (get equalKey date groupedEvents).isNone then set equalKey date [] groupedEvents
    else groupedEvents
  -- there is a list by now, and the task is added to it
  set equalKey date ((get equalKey date groupedEvents).getD [] ++ [event]) groupedEvents

/-- `groupEvents`. -/
def groupEvents (events : Option (List AppTask)) : List (DateTime × List AppTask) :=
  match events with
  | none => []
  | some events => events.foldl (addToGroup z) []

/-- `getEventsForDay`. -/
def getEventsForDay (day : Option DateTime) (eventList : List AppTask) : List AppTask :=
  let kEvents := addAll (sameKey z) [] (groupEvents z (some eventList))
  match day with
  | none => []
  | some day => (get (sameKey z) day kEvents).getD []

/-! ## The two tests of keys -/

variable {z}

theorem isSameDay_iff {a b : DateTime} :
    isSameDay z (some a) (some b) = true ↔ a.epochDay z = b.epochDay z := by
  rw [← DateTime.sameDate_iff]
  simp only [isSameDay, Bool.and_eq_true, decide_eq_true_eq, and_assoc]

/-- `isSameDay` is an equivalence of the days that are given. -/
theorem isSameDay_equivalence (z : Zone) :
    Equivalence fun a b : DateTime => isSameDay z (some a) (some b) = true := by
  simp only [isSameDay_iff]
  exact ⟨fun _ => rfl, Eq.symm, Eq.trans⟩

/-- Days that are the same have one hash code. -/
theorem getHashCode_of_isSameDay {a b : DateTime} (h : isSameDay z (some a) (some b) = true) :
    getHashCode z a = getHashCode z b := by
  obtain ⟨hy, hm, hd⟩ := DateTime.sameDate_iff.mpr (isSameDay_iff.mp h)
  rw [getHashCode, getHashCode, hy, hm, hd]

theorem sameKey_iff {a b : DateTime} : sameKey z a b = true ↔ a.epochDay z = b.epochDay z := by
  have hhash : sameKey z = fun a b => isSameDay z (some a) (some b) :=
    hashed_eq fun _ _ => getHashCode_of_isSameDay
  rw [hhash]
  exact isSameDay_iff

theorem equalKey_iff {a b : DateTime} : equalKey a b = true ↔ a = b := decide_eq_true_iff

theorem equalKey_equivalence : Equivalence fun a b => equalKey a b = true := by
  simp only [equalKey_iff]
  exact eq_equivalence

/-- The key of the group of day `n`. -/
def noonOf (n : ℤ) : DateTime := .utc (Civil.yearOf n) (Civil.monthOf n) (Civil.dayOf n) 12

@[simp] theorem epochDay_noonOf (z : Zone) (n : ℤ) : (noonOf n).epochDay z = n := by
  rw [noonOf, DateTime.epochDay_utc z _ _ _ (by decide), Civil.dayNumber_civil]

theorem noonOf_inj {m n : ℤ} : noonOf m = noonOf n ↔ m = n := by
  constructor
  · intro h
    have hday : (noonOf m).epochDay (.fixed .utc) = (noonOf n).epochDay (.fixed .utc) :=
      congrArg _ h
    rwa [epochDay_noonOf, epochDay_noonOf] at hday
  · exact congrArg noonOf

/-! ## Groups -/

/-- The tasks of day `n`. -/
def onDay (z : Zone) (n : ℤ) (events : List AppTask) : List AppTask :=
  events.filter fun event => decide (event.date.epochDay z = n)

theorem onDay_snoc (n : ℤ) (events : List AppTask) (event : AppTask) :
    onDay z n (events ++ [event])
      = onDay z n events ++ if event.date.epochDay z = n then [event] else [] := by
  unfold onDay
  rw [List.filter_append, List.filter_singleton]
  by_cases h : event.date.epochDay z = n
  · simp [h]
  · simp [h]

/-- A round of the loop adds the task to the group of its day. -/
theorem get_addToGroup (m : List (DateTime × List AppTask)) (event : AppTask) (n : ℤ) :
    get equalKey (noonOf n) (addToGroup z m event)
      = if event.date.epochDay z = n then some ((get equalKey (noonOf n) m).getD [] ++ [event])
        else get equalKey (noonOf n) m := by
  have hdate : DateTime.utc (event.date.year z) (event.date.month z) (event.date.day z) 12
      = noonOf (event.date.epochDay z) := rfl
  have hkey : equalKey (noonOf (event.date.epochDay z)) (noonOf n) = true
      ↔ event.date.epochDay z = n := equalKey_iff.trans noonOf_inj
  simp only [addToGroup, hdate]
  rw [get_set equalKey_equivalence]
  by_cases hday : event.date.epochDay z = n
  · rw [if_pos (hkey.mpr hday), if_pos hday, hday]
    -- the empty list that a new group starts from
    cases hget : get equalKey (noonOf n) m with
    | none =>
        have hself : equalKey (noonOf n) (noonOf n) = true := equalKey_iff.mpr rfl
        rw [Option.isNone_none, if_pos rfl, get_set equalKey_equivalence, if_pos hself]
        rfl
    | some group =>
        rw [Option.isNone_some, if_neg Bool.false_ne_true, hget]
  · rw [if_neg (mt hkey.mp hday), if_neg hday]
    split
    · rw [get_set equalKey_equivalence, if_neg (mt hkey.mp hday)]
    · rfl

/-- Every key is the noon of a day. -/
def NoonKeys (m : List (DateTime × List AppTask)) : Prop := ∀ e ∈ m, ∃ n, e.1 = noonOf n

theorem NoonKeys.set {m : List (DateTime × List AppTask)} (h : NoonKeys m) (n : ℤ)
    (group : List AppTask) : NoonKeys (set equalKey (noonOf n) group m) := by
  intro e he
  rcases mem_set he with hkey | ⟨e', he', heq⟩
  · exact ⟨n, hkey⟩
  · rw [← heq]
    exact h e' he'

/-- The groups after the loop: each day has its tasks in order, and each key once. -/
structure Grouped (z : Zone) (events : List AppTask) (m : List (DateTime × List AppTask)) :
    Prop where
  group : ∀ n, (get equalKey (noonOf n) m).getD [] = onDay z n events
  noonKeys : NoonKeys m
  distinct : Distinct equalKey m

theorem Grouped.addToGroup {events : List AppTask} {m : List (DateTime × List AppTask)}
    (h : Grouped z events m) (event : AppTask) :
    Grouped z (events ++ [event]) (addToGroup z m event) := by
  refine ⟨fun n => ?_, ?_, ?_⟩
  · rw [get_addToGroup, onDay_snoc, h.group n]
    by_cases hday : event.date.epochDay z = n
    · rw [if_pos hday, if_pos hday]
      rfl
    · rw [if_neg hday, if_neg hday, h.group n, List.append_nil]
  · unfold AquaFocus.addToGroup
    apply NoonKeys.set
    split
    · exact h.noonKeys.set _ _
    · exact h.noonKeys
  · unfold AquaFocus.addToGroup
    apply Distinct.set
    split
    · exact h.distinct.set _ _
    · exact h.distinct

theorem grouped_groupEvents (z : Zone) (events : List AppTask) :
    Grouped z events (groupEvents z (some events)) := by
  induction events using List.reverseRecOn with
  | nil => exact ⟨fun _ => rfl, fun _ he => absurd he List.not_mem_nil, List.Pairwise.nil⟩
  | append_singleton events event ih =>
      have hround : groupEvents z (some (events ++ [event]))
          = addToGroup z (groupEvents z (some events)) event := by
        simp only [groupEvents, List.foldl_append, List.foldl_cons, List.foldl_nil]
      rw [hround]
      exact ih.addToGroup event

/-! ## The second map -/

/-- Among noons, the days that are the same are equal. -/
theorem sameKey_noonOf (m n : ℤ) (day : DateTime) (hday : day.epochDay z = n) :
    sameKey z (noonOf m) day = equalKey (noonOf m) (noonOf n) := by
  rw [Bool.eq_iff_iff, sameKey_iff, equalKey_iff, noonOf_inj, epochDay_noonOf, hday]

/-- The map of `isSameDay` holds the same entries. -/
theorem Grouped.addAll {events : List AppTask} {m : List (DateTime × List AppTask)}
    (h : Grouped z events m) : addAll (sameKey z) [] m = m := by
  apply addAll_of_distinct
  rw [List.nil_append]
  refine h.distinct.imp_of_mem fun {e e'} he he' hne => ?_
  obtain ⟨i, hi⟩ := h.noonKeys e he
  obtain ⟨j, hj⟩ := h.noonKeys e' he'
  rw [hi, hj] at hne ⊢
  rwa [sameKey_noonOf i j _ (epochDay_noonOf z j)]

/-- What `getEventsForDay` finds. -/
theorem getEventsForDay_eq_onDay (z : Zone) (day : DateTime) (events : List AppTask) :
    getEventsForDay z (some day) events = onDay z (day.epochDay z) events := by
  have h := grouped_groupEvents z events
  have hget : get (sameKey z) day (groupEvents z (some events))
      = get equalKey (noonOf (day.epochDay z)) (groupEvents z (some events)) := by
    apply get_congr
    intro e he
    obtain ⟨m, hm⟩ := h.noonKeys e he
    rw [hm]
    exact sameKey_noonOf m _ day rfl
  simp only [getEventsForDay, h.addAll, hget]
  exact h.group _

theorem mem_getEventsForDay {day : DateTime} {events : List AppTask} {event : AppTask} :
    event ∈ getEventsForDay z (some day) events
      ↔ event ∈ events ∧ event.date.epochDay z = day.epochDay z := by
  rw [getEventsForDay_eq_onDay, onDay, List.mem_filter, decide_eq_true_eq]

/-- **Day lookup** is the filter of the list by the fields of the date, and finds
each task of the list on its own day and no other. -/
theorem getEventsForDay_eq_filter (z : Zone) (day : DateTime) (events : List AppTask) :
    getEventsForDay z (some day) events
        = events.filter (fun event => decide (event.date.year z = day.year z
            ∧ event.date.month z = day.month z ∧ event.date.day z = day.day z))
      ∧ ∀ event ∈ events, event ∈ getEventsForDay z (some day) events
          ↔ day.epochDay z = event.date.epochDay z := by
  constructor
  · rw [getEventsForDay_eq_onDay, onDay]
    simp only [DateTime.sameDate_iff]
  · intro event hevent
    rw [mem_getEventsForDay, and_iff_right hevent]
    exact eq_comm

end AquaFocus
