/-
The focus record as the store keeps it, and its readers.

In the store a day's document has a string for its id and a string for its date,
both written by `DateFormat('yyyy-MM-dd')`, and its hours are a list of numbers.
The statistics read it back: the bar and the line chart by the id, the heat map
by what `DateTime.parse` makes of the date, the first in the order of the ids. Here `saveFocusTime` is translated
once more, on these documents, and `stored_run` says that it is the one of
`FocusTime.lean`, and that what is read is what was recorded.
-/
import AquaFocus.FocusTime
import AquaFocus.WeeklyChart

set_option autoImplicit false

open Dart Runs

namespace AquaFocus.FocusStore

open FocusTime (Date Hours FocusDoc Collection AtHour formatDate differenceInt)
open WeeklyChart (documentId dateOf)

/-! ## Dates in the store -/

/-- What `DateFormat('yyyy-MM-dd')` writes with ten characters: the date of a day
in a year of four digits. -/
def Written (date : Date) : Prop :=
  ∃ n, date = dateOf n ∧ 0 ≤ Civil.yearOf n ∧ Civil.yearOf n ≤ 9999

/-- The fields `DateTime.parse` reads of `yyyy-MM-dd`; it throws at anything else. -/
def parseDate (s : String) : Option Date :=
  let cs := s.toList
  if cs.length = 10 ∧ cs[4]? = some '-' ∧ cs[7]? = some '-' then
    (parseDigits (cs.take 4)).bind fun year =>
      (parseDigits ((cs.drop 5).take 2)).bind fun month =>
        (parseDigits (cs.drop 8)).map fun day => ⟨year, month, day⟩
  else none

/-- `DateTime.parse`. -/
def parse (z : Zone) (s : String) : Option DateTime :=
  (parseDate s).map fun date => .ofDate z date.year date.month date.day

/-- A number of `width` digits at most is written with as many. -/
theorem padLeft_digits (width : ℕ) {n : ℤ} (h0 : 0 ≤ n) (h : n < 10 ^ width) (hw : 0 < width) :
    (padLeft width '0' n.repr).toList.length = width
      ∧ parseDigits (padLeft width '0' n.repr).toList = some n := by
  obtain ⟨k, rfl⟩ := Int.eq_ofNat_of_zero_le h0
  have hle : k.repr.length ≤ width := (Nat.length_repr_le_iff hw).mpr (by exact_mod_cast h)
  constructor
  · rw [String.length_toList, length_padLeft]
    exact max_eq_left hle
  · rw [toList_padLeft]
    exact parseDigits_padded k _

/-- The parts of a string of ten characters are taken apart again. -/
theorem parseDate_of_toList {s : String} {year month day : List Char}
    (hs : s.toList = year ++ '-' :: (month ++ '-' :: day)) (hy : year.length = 4)
    (hm : month.length = 2) (hd : day.length = 2) :
    parseDate s = (parseDigits year).bind fun y =>
      (parseDigits month).bind fun m => (parseDigits day).map fun d => ⟨y, m, d⟩ := by
  obtain ⟨m₁, m₂, rfl⟩ := List.length_eq_two.mp hm
  obtain ⟨d₁, d₂, rfl⟩ := List.length_eq_two.mp hd
  have htake : s.toList.take 4 = year := by rw [hs, List.take_left' hy]
  have hdrop : s.toList.drop 4 = ['-', m₁, m₂, '-', d₁, d₂] := by rw [hs, List.drop_left' hy]; rfl
  have hget : ∀ i, s.toList[4 + i]? = (['-', m₁, m₂, '-', d₁, d₂] : List Char)[i]? := by
    intro i
    rw [← hdrop, List.getElem?_drop]
  have hrest : ∀ i, s.toList.drop (4 + i) = (['-', m₁, m₂, '-', d₁, d₂] : List Char).drop i := by
    intro i
    rw [← hdrop, List.drop_drop]
  have hlen : s.toList.length = 10 := by
    rw [hs, List.length_append, hy]
    rfl
  simp only [parseDate]
  rw [if_pos ⟨hlen, hget 0, hget 3⟩, htake, hrest 1, hrest 4]
  rfl

/-- A written date is read back. -/
theorem parseDate_documentId {date : Date} (h : Written date) :
    parseDate (documentId date) = some date := by
  obtain ⟨n, rfl, hyear, hyear'⟩ := h
  have hm := Civil.monthOf_bounds n
  have hd := Civil.dayOf_bounds n
  have hlen := Civil.monthLength_bounds (Civil.monthIndex n)
  obtain ⟨hylen, hydigits⟩ := padLeft_digits 4 hyear (by omega) (by decide)
  obtain ⟨hmlen, hmdigits⟩ := padLeft_digits 2 (n := Civil.monthOf n) (by omega)
    (by omega) (by decide)
  obtain ⟨hdlen, hddigits⟩ := padLeft_digits 2 (n := Civil.dayOf n) (by omega)
    (by omega) (by decide)
  have hlist : (documentId (dateOf n)).toList
      = (padLeft 4 '0' (Civil.yearOf n).repr).toList
        ++ '-' :: ((padLeft 2 '0' (Civil.monthOf n).repr).toList
          ++ '-' :: (padLeft 2 '0' (Civil.dayOf n).repr).toList) := by
    simp [documentId, WeeklyChart.monthDay, dateOf, String.toList_append]
  rw [parseDate_of_toList hlist hylen hmlen hdlen, hydigits, hmdigits, hddigits]
  rfl

theorem documentId_inj {date day : Date} (h : Written date) (h' : Written day) :
    documentId date = documentId day ↔ date = day := by
  constructor
  · intro heq
    have hparse := congrArg parseDate heq
    rw [parseDate_documentId h, parseDate_documentId h'] at hparse
    exact Option.some.inj hparse
  · rintro rfl
    rfl

/-! ## Documents -/

/-- A document, with its fields `totalTime`, `Date` and `Hours`. -/
structure Doc where
  totalTime : ℤ
  date : String
  hours : List ℤ

/-- The collection, under the ids of its documents. -/
abbrev Docs : Type := List (String × Doc)

/-- `doc(id).set`, and `update` of a document that is there. -/
def Docs.set (docs : Docs) (id : String) (doc : Doc) : Docs := (id, doc) :: docs.filter (·.1 ≠ id)

/-! ## `saveFocusTime` -/

/-- `hours[i] = hours[i] + n`. -/
def addAt (hours : List ℤ) (i : ℕ) (n : ℤ) : List ℤ := hours.modify i (· + n)

/-- The loop of the second branch. -/
def added (z : Zone) (call : FocusTime.Call) (hours : List ℤ) : List ℤ :=
  (List.range 24).foldl (fun hours (i : ℕ) =>
    if (i : ℤ) = call.startTime.hour z ∧ (i : ℤ) = call.endTime.hour z then
      addAt hours i call.diffInt
    else hours) hours

/-- The two inner loops of the first branch. -/
def spread (z : Zone) (call : FocusTime.Call) (i : ℕ) (hours : List ℤ) : List ℤ :=
  (List.range 24).foldl (fun hours (j : ℕ) =>
    if (j : ℤ) = call.endTime.hour z then
      let startOfHour := DateTime.ofFields z (call.readings.endYear.year z)
        (call.readings.endMonth.month z) (call.readings.endDay.day z) j 0
      (List.range' (i + 1) (j - (i + 1))).foldl (fun hours k => addAt hours k 60)
        (addAt hours j (differenceInt call.endTime startOfHour))
    else hours) hours

/-- The first branch. -/
def generated (z : Zone) (call : FocusTime.Call) : List ℤ :=
  (List.range 24).foldl (fun hours (i : ℕ) =>
    if (i : ℤ) = call.startTime.hour z ∧ (i : ℤ) = call.endTime.hour z then
      addAt hours i call.diffInt
    else if (i : ℤ) = call.startTime.hour z ∧ ¬ (i : ℤ) = call.endTime.hour z then
      let endOfHour := DateTime.ofFields z (call.readings.startYear.year z)
        (call.readings.startMonth.month z) (call.readings.startDay.day z) (i + 1) 0
      spread z call i (addAt hours i (differenceInt endOfHour call.startTime))
    else hours) (List.replicate 24 0)

/-- `getListForHours`, of the field `Hours`. -/
def getListForHours (z : Zone) (docs : Docs) (now : DateTime) : List ℤ :=
  match docs.lookup (documentId (formatDate z now)) with
  | none => []
  | some doc => doc.hours

/-- `saveFocusTime`, when nothing comes between its steps. -/
def saveFocusTime (z : Zone) (docs : Docs) (call : FocusTime.Call) : Docs :=
  let date := documentId (formatDate z call.caller)
  let read := getListForHours z docs call.readings.getListForHours
  let hours := if read.isEmpty then generated z call else added z call read
  match docs.lookup date with
  | some doc => docs.set date {
      doc with totalTime := doc.totalTime + call.duration, hours := hours }
  | none => docs.set date {
      totalTime := call.duration
      date := documentId (formatDate z call.readings.dateField)
      hours := hours }

/-! ## The readers -/

/-- `getTimeOfTheDay`. -/
def getTimeOfTheDay (docs : Docs) (day : String) : ℤ :=
  match docs.lookup day with
  | none => 0
  | some doc => doc.totalTime

/-- `getTimeOfTheHours`. -/
def getTimeOfTheHours (docs : Docs) (day : String) : List ℤ :=
  match docs.lookup day with
  | none => []
  | some doc => doc.hours

/-- The documents as `get()` has them, in the order of their ids. -/
def ordered (docs : Docs) : Docs := docs.mergeSort fun p q => decide (p.1 ≤ q.1)

/-- `heatMapData`; a date that is not one throws. -/
def heatMapData (z : Zone) (docs : Docs) : Option (DateTime → Option ℤ) :=
  (ordered docs).foldlM (fun mapInput doc => (parse z doc.2.date).map fun dt =>
    if (mapInput dt).isSome then mapInput
    else Function.update mapInput dt (some doc.2.totalTime)) fun _ => none

/-! ## The record, and its documents -/

/-- A day's record as the store keeps it. -/
def encode (docs : Collection) : Docs :=
  docs.map fun p => (documentId p.1, ⟨p.2.totalTime, documentId p.2.date, List.ofFn p.2.hours⟩)

theorem addAt_ofFn (hours : Hours) (i : Fin 24) (n : ℤ) :
    addAt (List.ofFn hours) i n = List.ofFn (hours.add i n) := by
  apply List.ext_getElem?
  intro j
  rw [addAt, List.getElem?_modify, List.getElem?_ofFn, List.getElem?_ofFn]
  by_cases hj : j < 24
  · -- an index as a number, and as an hour
    rw [dif_pos hj, dif_pos hj, FocusTime.Hours.add_apply]
    change some (if i.val = j then hours ⟨j, hj⟩ + n else hours ⟨j, hj⟩) = _
    by_cases hij : i.val = j
    · have hfin : i = ⟨j, hj⟩ := Fin.ext hij
      rw [if_pos hij, if_pos hfin]
    · have hfin : ¬ i = ⟨j, hj⟩ := fun heq => hij (congrArg Fin.val heq)
      rw [if_neg hij, if_neg hfin, add_zero]
  · rw [dif_neg hj, dif_neg hj]
    rfl

/-- A loop over the indices, on lists and on hours. -/
theorem foldl_ofFn {f : Hours → Fin 24 → Hours} {g : List ℤ → ℕ → List ℤ}
    (hfg : ∀ (hours : Hours) (i : Fin 24), g (List.ofFn hours) i = List.ofFn (f hours i))
    (is : List (Fin 24)) (hours : Hours) :
    (is.map (·.val)).foldl g (List.ofFn hours) = List.ofFn (is.foldl f hours) := by
  induction is generalizing hours with
  | nil => rfl
  | cons i is ih => rw [List.map_cons, List.foldl_cons, List.foldl_cons, hfg, ih]

theorem range_eq : List.range 24 = (List.finRange 24).map (·.val) := by decide

/-- The indices between two others. -/
theorem range'_eq : ∀ i j : Fin 24, List.range' (i.val + 1) (j.val - (i.val + 1))
    = ((List.finRange 24).filter fun k => i < k ∧ k < j).map (·.val) := by decide +kernel

section

variable (z : Zone) (call : FocusTime.Call)

/-- The tests of the first two branches are the same on both sides. -/
theorem added_step (hours : Hours) (i : Fin 24) :
    (if (i.val : ℤ) = call.startTime.hour z ∧ (i.val : ℤ) = call.endTime.hour z then
        addAt (List.ofFn hours) i.val call.diffInt
      else List.ofFn hours)
      = List.ofFn (if AtHour z call.startTime i ∧ AtHour z call.endTime i then
          hours.add i call.diffInt
        else hours) := by
  by_cases hboth : AtHour z call.startTime i ∧ AtHour z call.endTime i
  · have hraw : (i.val : ℤ) = call.startTime.hour z ∧ (i.val : ℤ) = call.endTime.hour z := hboth
    rw [if_pos hboth, if_pos hraw, addAt_ofFn]
  · have hraw : ¬ ((i.val : ℤ) = call.startTime.hour z ∧ (i.val : ℤ) = call.endTime.hour z) :=
      hboth
    rw [if_neg hboth, if_neg hraw]

theorem added_ofFn (hours : Hours) :
    added z call (List.ofFn hours) = List.ofFn (call.added z hours) := by
  unfold added FocusTime.Call.added
  rw [range_eq]
  exact foldl_ofFn (added_step z call) _ _

theorem spread_ofFn (i : Fin 24) (hours : Hours) :
    spread z call i (List.ofFn hours) = List.ofFn (call.spread z i hours) := by
  unfold spread FocusTime.Call.spread
  rw [range_eq]
  apply foldl_ofFn
  intro hours j
  by_cases hend : AtHour z call.endTime j
  · have hraw : (j.val : ℤ) = call.endTime.hour z := hend
    rw [if_pos hend, if_pos hraw, range'_eq]
    dsimp only
    -- the hours between, of which each gets a minute
    rw [addAt_ofFn]
    exact foldl_ofFn (fun hours k => addAt_ofFn hours k 60) _ _
  · have hraw : ¬ (j.val : ℤ) = call.endTime.hour z := hend
    rw [if_neg hend, if_neg hraw]

theorem generated_ofFn : generated z call = List.ofFn (call.generated z) := by
  unfold generated FocusTime.Call.generated
  have hzero : List.replicate 24 (0 : ℤ) = List.ofFn fun _ : Fin 24 => (0 : ℤ) := by
    rw [List.ofFn_const]
  rw [range_eq, hzero]
  apply foldl_ofFn
  intro hours i
  by_cases hboth : AtHour z call.startTime i ∧ AtHour z call.endTime i
  · have hraw : (i.val : ℤ) = call.startTime.hour z ∧ (i.val : ℤ) = call.endTime.hour z := hboth
    rw [if_pos hboth, if_pos hraw, addAt_ofFn]
  · have hraw : ¬ ((i.val : ℤ) = call.startTime.hour z ∧ (i.val : ℤ) = call.endTime.hour z) :=
      hboth
    rw [if_neg hboth, if_neg hraw]
    by_cases hstart : AtHour z call.startTime i ∧ ¬ AtHour z call.endTime i
    · have hraw' : (i.val : ℤ) = call.startTime.hour z ∧ ¬ (i.val : ℤ) = call.endTime.hour z :=
        hstart
      rw [if_pos hstart, if_pos hraw']
      dsimp only
      rw [addAt_ofFn, spread_ofFn]
    · have hraw' : ¬ ((i.val : ℤ) = call.startTime.hour z
          ∧ ¬ (i.val : ℤ) = call.endTime.hour z) := hstart
      rw [if_neg hstart, if_neg hraw']

end

/-! ## Reading by the id -/

/-- The ids are those of dates that are read back, and each is there once. -/
structure AllWritten (docs : Collection) : Prop where
  written : ∀ p ∈ docs, Written p.1 ∧ Written p.2.date
  nodup : (docs.map (·.1)).Nodup

variable {docs : Collection}

theorem AllWritten.tail {p : Date × FocusDoc} (h : AllWritten (p :: docs)) : AllWritten docs where
  written q hq := h.written q (List.mem_cons_of_mem p hq)
  nodup := (List.nodup_cons.mp h.nodup).2

theorem lookup_encode (h : AllWritten docs) {day : Date} (hday : Written day) :
    (encode docs).lookup (documentId day) = (docs.lookup day).map fun doc =>
      ⟨doc.totalTime, documentId doc.date, List.ofFn doc.hours⟩ := by
  induction docs with
  | nil => rfl
  | cons p docs ih =>
      have hrest := h.tail
      have hp : Written p.1 := (h.written p List.mem_cons_self).1
      rw [encode, List.map_cons, List.lookup_cons, FocusTime.lookup_cons]
      -- different days have different ids, for both are read back
      by_cases heq : day = p.1
      · have hbeq : (documentId day == documentId p.1) = true := by
          rw [heq]
          exact beq_self_eq_true _
        rw [hbeq, if_pos heq]
        rfl
      · have hbeq : (documentId day == documentId p.1) = false :=
          beq_eq_false_iff_ne.mpr fun hid => heq ((documentId_inj hday hp).mp hid)
        rw [hbeq, if_neg heq]
        exact ih hrest

theorem encode_set (h : AllWritten docs) {day : Date} (hday : Written day) (doc : FocusDoc) :
    encode (docs.set day doc) = (encode docs).set (documentId day)
      ⟨doc.totalTime, documentId doc.date, List.ofFn doc.hours⟩ := by
  unfold encode Docs.set Collection.set
  rw [List.map_cons, List.filter_map]
  congr 2
  apply List.filter_congr
  intro p hp
  have hinj := documentId_inj (h.written p hp).1 hday
  simp only [Function.comp_apply, ne_eq, hinj]

theorem AllWritten.set (h : AllWritten docs) {day : Date} (hday : Written day) {doc : FocusDoc}
    (hdoc : Written doc.date) : AllWritten (docs.set day doc) := by
  constructor
  · intro p hp
    rcases List.mem_cons.mp hp with rfl | hp
    · exact ⟨hday, hdoc⟩
    · exact h.written p (List.mem_filter.mp hp).1
  · rw [FocusTime.Collection.set, List.map_cons, List.nodup_cons]
    refine ⟨fun hmem => ?_, (List.filter_sublist.map _).nodup h.nodup⟩
    obtain ⟨p, hp, rfl⟩ := List.mem_map.mp hmem
    simpa using (List.mem_filter.mp hp).2

/-! ## One call -/

/-- The readings of a call lie in years of four digits. -/
def FourDigits (z : Zone) (call : FocusTime.Call) : Prop :=
  ∀ t ∈ call.caller :: call.readings.toList, 0 ≤ t.year z ∧ t.year z ≤ 9999

theorem written_formatDate {z : Zone} {t : DateTime} (h : 0 ≤ t.year z ∧ t.year z ≤ 9999) :
    Written (formatDate z t) := ⟨t.epochDay z, rfl, h.1, h.2⟩

section

variable {z : Zone} {call : FocusTime.Call}

theorem FourDigits.caller (h : FourDigits z call) : Written (formatDate z call.caller) :=
  written_formatDate (h _ List.mem_cons_self)

theorem FourDigits.readings (h : FourDigits z call) {t : DateTime}
    (ht : t ∈ call.readings.toList) : Written (formatDate z t) :=
  written_formatDate (h t (List.mem_cons_of_mem _ ht))

theorem getListForHours_encode (h : AllWritten docs) {now : DateTime}
    (hnow : Written (formatDate z now)) :
    getListForHours z (encode docs) now
      = ((FocusTime.getHoursList z docs now).map List.ofFn).getD [] := by
  rw [getListForHours, lookup_encode h hnow, FocusTime.getHoursList]
  cases docs.lookup (formatDate z now) <;> rfl

/-- The list a call writes is the hours it writes. -/
theorem hours_encode (o : Option Hours) :
    (if ((o.map List.ofFn).getD []).isEmpty then generated z call
      else added z call ((o.map List.ofFn).getD [])) = List.ofFn (call.hoursAfter z o) := by
  cases o with
  | none => exact generated_ofFn z call
  | some hours =>
      -- a stored list has its 24 entries, so it is not taken for a missing one
      have hne : (List.ofFn hours).isEmpty = false := by
        rw [List.ofFn_succ]
        rfl
      simp only [Option.map_some, Option.getD_some]
      rw [hne, if_neg (by simp), added_ofFn]
      rfl

/-- **A call on the store is one on the record.** -/
theorem saveFocusTime_encode (h : AllWritten docs) (hcall : FourDigits z call) :
    saveFocusTime z (encode docs) call = encode (FocusTime.saveFocusTime z docs call)
      ∧ AllWritten (FocusTime.saveFocusTime z docs call) := by
  have hread : Written (formatDate z call.readings.getListForHours) :=
    hcall.readings (by simp [FocusTime.Readings.toList])
  have hfield : Written (formatDate z call.readings.dateField) :=
    hcall.readings (by simp [FocusTime.Readings.toList])
  simp only [saveFocusTime]
  rw [getListForHours_encode h hread, hours_encode, lookup_encode h hcall.caller]
  cases hdoc : docs.lookup (formatDate z call.caller) with
  | some doc =>
      rw [FocusTime.saveFocusTime_of_some hdoc]
      refine ⟨?_, h.set hcall.caller (h.written _ (FocusTime.mem_of_lookup hdoc)).2⟩
      rw [encode_set h hcall.caller]
      rfl
  | none =>
      rw [FocusTime.saveFocusTime_of_none hdoc]
      refine ⟨?_, h.set hcall.caller hfield⟩
      rw [encode_set h hcall.caller]
      rfl

end

/-! ## The heat map -/

/-- The midnight a date is parsed to. -/
def midnightOf (z : Zone) (n : ℤ) : DateTime := ⟨z.instantOf (days n), false⟩

theorem parse_documentId {n : ℤ} (z : Zone) (h : Written (dateOf n)) :
    parse z (documentId (dateOf n)) = some (midnightOf z n) := by
  rw [parse, parseDate_documentId h, Option.map_some, midnightOf]
  simp only [DateTime.ofDate, DateTime.ofFields, dateOf, Civil.dayNumber_civil, zero_mul, add_zero]

theorem midnightOf_inj {z : Zone} (hz : z.InOrder) {m n : ℤ} :
    midnightOf z m = midnightOf z n ↔ m = n := by
  constructor
  · intro h
    have hinstant : z.instantOf (days m) = z.instantOf (days n) :=
      congrArg DateTime.microsecondsSinceEpoch h
    exact le_antisymm (hz.midnights_le_iff.mp hinstant.le) (hz.midnights_le_iff.mp hinstant.ge)
  · rintro rfl
    rfl

theorem dateOf_inj {m n : ℤ} : dateOf m = dateOf n ↔ m = n := by
  constructor
  · intro h
    rw [dateOf, dateOf, Date.mk.injEq] at h
    rw [← Civil.dayNumber_civil m, h.1, h.2.1, h.2.2, Civil.dayNumber_civil]
  · rintro rfl
    rfl

/-- The record in the order of its documents' ids. -/
def byId (docs : Collection) : Collection :=
  docs.mergeSort fun p q => decide (documentId p.1 ≤ documentId q.1)

theorem ordered_encode (docs : Collection) : ordered (encode docs) = encode (byId docs) := by
  unfold ordered encode byId
  rw [List.map_mergeSort]
  exact fun _ _ _ _ => rfl

theorem AllWritten.byId (h : AllWritten docs) : AllWritten (byId docs) where
  written p hp := h.written p (List.mem_mergeSort.mp hp)
  nodup := ((List.mergeSort_perm ..).map _).nodup_iff.mpr h.nodup

/-- The order is nothing to a reader by the id. -/
theorem lookup_byId (h : AllWritten docs) (day : Date) :
    (byId docs).lookup day = docs.lookup day := by
  have hmem : ∀ doc, (byId docs).lookup day = some doc ↔ docs.lookup day = some doc := by
    intro doc
    rw [FocusTime.lookup_eq_some_iff h.byId.nodup, FocusTime.lookup_eq_some_iff h.nodup]
    exact List.mem_mergeSort
  exact Option.ext hmem

/-- The map by midnights and the map by dates, entry for entry. -/
theorem heatMapData_encode {z : Zone} (hz : z.InOrder) (h : AllWritten docs) :
    ∃ mapInput, heatMapData z (encode docs) = some mapInput
      ∧ ∀ n, mapInput (midnightOf z n) = FocusTime.heatMapData (byId docs) (dateOf n) := by
  unfold heatMapData FocusTime.heatMapData
  rw [ordered_encode]
  -- the two maps are built side by side
  have hloop : ∀ (docs : Collection) (m : DateTime → Option ℤ) (m' : Date → Option ℤ),
      AllWritten docs → (∀ n, m (midnightOf z n) = m' (dateOf n)) →
      ∃ mapInput, (encode docs).foldlM (fun mapInput doc => (parse z doc.2.date).map fun dt =>
          if (mapInput dt).isSome then mapInput
          else Function.update mapInput dt (some doc.2.totalTime)) m = some mapInput
        ∧ ∀ n, mapInput (midnightOf z n) = docs.foldl (fun mapInput doc =>
            if (mapInput doc.2.date).isSome then mapInput
            else Function.update mapInput doc.2.date (some doc.2.totalTime)) m' (dateOf n) := by
    intro docs
    induction docs with
    | nil => exact fun m m' _ hm => ⟨m, rfl, hm⟩
    | cons p docs ih =>
        intro m m' hall hm
        have hdate := (hall.written p List.mem_cons_self).2
        obtain ⟨k, hk, -⟩ := id hdate
        have hparse := parse_documentId z (hk ▸ hdate)
        rw [encode, List.map_cons, List.foldlM_cons, hk, hparse, Option.map_some,
          List.foldl_cons, hk]
        apply ih _ _ hall.tail
        intro n
        rw [hm k]
        by_cases hseen : (m' (dateOf k)).isSome = true
        · rw [if_pos hseen, if_pos hseen, hm n]
        · rw [if_neg hseen, if_neg hseen]
          by_cases hn : n = k
          · rw [hn, Function.update_self, Function.update_self]
          · rw [Function.update_of_ne fun heq => hn ((midnightOf_inj hz).mp heq),
              Function.update_of_ne fun heq => hn (dateOf_inj.mp heq), hm n]
  exact hloop _ _ _ h.byId fun n => rfl

/-! ## Runs -/

/-- Calls one after the other. -/
def step (z : Zone) (docs : Docs) (call : FocusTime.Call) : Option Docs :=
  some (saveFocusTime z docs call)

/-- What the readers find in the store is what was recorded. -/
structure Reads (z : Zone) (docs : Docs) (record : Collection) : Prop where
  timeOfTheDay : ∀ t : DateTime, 0 ≤ t.year z → t.year z ≤ 9999 →
    getTimeOfTheDay docs (documentId (formatDate z t))
      = FocusTime.getTimeOfTheDay record (formatDate z t)
  timeOfTheHours : ∀ t : DateTime, 0 ≤ t.year z → t.year z ≤ 9999 →
    getTimeOfTheHours docs (documentId (formatDate z t))
      = ((FocusTime.getHoursList z record t).map List.ofFn).getD []
  heatMap : ∃ mapInput, heatMapData z docs = some mapInput
    ∧ ∀ t : DateTime, mapInput (t.midnight z) = FocusTime.heatMapData (byId record) (formatDate z t)

theorem reads_encode {z : Zone} (hz : z.InOrder) (h : AllWritten docs) :
    Reads z (encode docs) docs where
  timeOfTheDay t hyear hyear' := by
    rw [getTimeOfTheDay, lookup_encode h (written_formatDate ⟨hyear, hyear'⟩),
      FocusTime.getTimeOfTheDay]
    cases docs.lookup (formatDate z t) <;> rfl
  timeOfTheHours t hyear hyear' := by
    rw [getTimeOfTheHours, lookup_encode h (written_formatDate ⟨hyear, hyear'⟩),
      FocusTime.getHoursList]
    cases docs.lookup (formatDate z t) <;> rfl
  heatMap := by
    obtain ⟨mapInput, hmap, hday⟩ := heatMapData_encode hz h
    refine ⟨mapInput, hmap, fun t => ?_⟩
    rw [DateTime.midnight_eq, WeeklyChart.formatDate_eq]
    exact hday (t.epochDay z)

/-- Over a run the documents stay those of a record. -/
theorem encode_run {z : Zone} {calls : List FocusTime.Call}
    (hcalls : ∀ call ∈ calls, FourDigits z call) {docs : Docs}
    (hrun : run (step z) [] calls = some docs) :
    ∃ record, run (FocusTime.step z) [] calls = some record ∧ docs = encode record
      ∧ AllWritten record := by
  have hsim : ∀ (docs : Docs) (call : FocusTime.Call) (docs' : Docs) (record : Collection),
      (docs = encode record ∧ AllWritten record) → FourDigits z call →
      step z docs call = some docs' →
      ∃ record', FocusTime.step z record call = some record'
        ∧ docs' = encode record' ∧ AllWritten record' := by
    intro docs call docs' record ⟨hdocs, hwritten⟩ hcall hstep
    obtain ⟨hsave, hwritten'⟩ := saveFocusTime_encode hwritten hcall
    refine ⟨_, rfl, ?_, hwritten'⟩
    rw [← Option.some.inj hstep, hdocs, hsave]
  have hempty : ([] : Docs) = encode [] ∧ AllWritten [] :=
    ⟨rfl, fun p hp => absurd hp List.not_mem_nil, List.nodup_nil⟩
  exact run_simulates hsim hempty hcalls hrun

/-- **The store keeps the record**: over every run of calls its documents are the
record's, in strings, and every reader finds in them what was recorded. -/
theorem stored_run {z : Zone} (hz : z.InOrder) {calls : List FocusTime.Call}
    (hcalls : ∀ call ∈ calls, FourDigits z call) {docs : Docs}
    (hrun : run (step z) [] calls = some docs) :
    ∃ record, run (FocusTime.step z) [] calls = some record ∧ docs = encode record
      ∧ Reads z docs record := by
  obtain ⟨record, hrecord, rfl, hwritten⟩ := encode_run hcalls hrun
  exact ⟨record, hrecord, rfl, reads_encode hz hwritten⟩

/-- A morning and a late evening of June. -/
theorem stored_run_june :
    ∃ docs record, run (step FocusTime.utc) [] [FocusTime.morning, FocusTime.lateEvening]
        = some docs
      ∧ run (FocusTime.step FocusTime.utc) [] [FocusTime.morning, FocusTime.lateEvening]
        = some record
      ∧ docs = encode record ∧ Reads FocusTime.utc docs record := by
  have hcalls : ∀ call ∈ [FocusTime.morning, FocusTime.lateEvening],
      FourDigits FocusTime.utc call := by
    intro call hcall
    simp only [List.mem_cons, List.not_mem_nil, or_false] at hcall
    unfold FourDigits
    rcases hcall with rfl | rfl <;> decide
  obtain ⟨record, hrecord, hdocs, hreads⟩ := stored_run (Zone.InOrder.fixed .utc) hcalls rfl
  exact ⟨_, record, rfl, hrecord, hdocs, hreads⟩

end AquaFocus.FocusStore
