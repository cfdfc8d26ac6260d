/-
`saveFocusTime` under overlap.

Neither timer awaits the save, and a user may be signed in on two phones, so the
store steps of several calls interleave: each reads the list of hours, then
looks whether the day has a document, and then updates that document or sets
one. The time of the day is incremented in the store on the one path and set on
the other, and the list is written as it was computed from what was read.
`saves_kept_iff` says when nothing is lost all the same.
-/
import AquaFocus.FocusTime
import AquaFocus.Lib.Interleave

set_option autoImplicit false

open Dart Runs Interleave

namespace AquaFocus.FocusSaves

open FocusTime hiding step Kept

/-! ## Saves -/

/-- A call for a session within one clock hour of `day`, saved under that day. -/
structure Session (z : Zone) (day : Date) extends Call where
  hour : Fin 24
  caller_day : formatDate z caller = day
  start_day : formatDate z startTime = day
  end_day : formatDate z endTime = day
  start_hour : AtHour z startTime hour
  end_hour : AtHour z endTime hour

/-- How far a call is, with the list it has read and whether it has seen a
document. -/
inductive Stage
  | toRead
  | read (hours : Option Hours)
  | checked (hours : Option Hours) (focusDate : Bool)
  | done

structure Save (z : Zone) (day : Date) where
  session : Session z day
  stage : Stage

/-- The store steps of a call. -/
inductive Action
  | getHoursList
  | get
  | write

/-- The last step. An `update` where there is no document throws. -/
def write (z : Zone) (docs : Collection) (call : Call) (hours : Hours) (focusDate : Bool) :
    Collection :=
  let date := formatDate z call.caller
  if focusDate then
    match docs.lookup date with
    | some doc => docs.set date (call.update hours doc)
    | none => docs
  else docs.set date (call.newDoc z hours)

variable {z : Zone} {day : Date}

def act : Collection → Save z day → Action → Option (Collection × Save z day)
  | docs, ⟨s, .toRead⟩, .getHoursList =>
      some (docs, ⟨s, .read (FocusTime.getHoursList z docs s.readings.getListForHours)⟩)
  | docs, ⟨s, .read hours⟩, .get =>
      some (docs, ⟨s, .checked hours (docs.lookup (formatDate z s.caller)).isSome⟩)
  | docs, ⟨s, .checked hours focusDate⟩, .write =>
      some (write z docs s.toCall (s.hoursAfter z hours) focusDate, ⟨s, .done⟩)
  | _, _, _ => none

/-- The collection, and the sessions that are going to be saved. -/
def start (docs : Collection) (ss : List (Session z day)) : Config Collection (Save z day) :=
  ⟨docs, ss.map (⟨·, .toRead⟩)⟩

/-- Everything a call can do in one step. -/
theorem act_cases {docs docs' : Collection} {p p' : Save z day} {a : Action}
    (h : act docs p a = some (docs', p')) : ∃ s,
      (p = ⟨s, .toRead⟩ ∧ a = .getHoursList ∧ docs' = docs
          ∧ p' = ⟨s, .read (FocusTime.getHoursList z docs s.readings.getListForHours)⟩)
      ∨ (∃ hours, p = ⟨s, .read hours⟩ ∧ a = .get ∧ docs' = docs
          ∧ p' = ⟨s, .checked hours (docs.lookup day).isSome⟩)
      ∨ ∃ hours focusDate, p = ⟨s, .checked hours focusDate⟩ ∧ a = .write
          ∧ docs' = write z docs s.toCall (s.hoursAfter z hours) focusDate ∧ p' = ⟨s, .done⟩ := by
  obtain ⟨s, stage⟩ := p
  refine ⟨s, ?_⟩
  unfold act at h
  split at h
  · next heq =>
    cases heq
    cases h
    exact .inl ⟨rfl, rfl, rfl, rfl⟩
  · next hours heq =>
    cases heq
    cases h
    rw [s.caller_day]
    exact .inr (.inl ⟨hours, rfl, rfl, rfl, rfl⟩)
  · next hours focusDate heq =>
    cases heq
    cases h
    exact .inr (.inr ⟨hours, focusDate, rfl, rfl, rfl, rfl⟩)
  · cases h

theorem act_session {docs docs' : Collection} {p p' : Save z day} {a : Action}
    (h : act docs p a = some (docs', p')) : p'.session = p.session := by
  obtain ⟨s, ⟨rfl, -, -, rfl⟩ | ⟨hours, rfl, -, -, rfl⟩ | ⟨hours, focusDate, rfl, -, -, rfl⟩⟩ :=
    act_cases h <;> rfl

/-! ## What a write does -/

/-- The entries of a day's list, none being zero. -/
def hoursOf (docs : Collection) (day : Date) : Hours :=
  ((docs.lookup day).map (·.hours)).getD fun _ => 0

theorem getHoursList_getD (docs : Collection) (now : DateTime) :
    ((getHoursList z docs now).getD fun _ => 0) = hoursOf docs (formatDate z now) := rfl

/-- What a session leaves in the list it has read. -/
theorem hoursAfter_apply (s : Session z day) (o : Option Hours) (i : Fin 24) :
    s.hoursAfter z o i = (o.getD fun _ => 0) i + if s.hour = i then s.diffInt else 0 := by
  rw [Call.hoursAfter_of_atHour s.start_hour s.end_hour, Hours.add_apply]

section

variable {docs : Collection} {s : Session z day} {hours : Hours}

theorem write_update {doc : FocusDoc} (hdoc : docs.lookup day = some doc) :
    write z docs s.toCall hours true = docs.set day (s.update hours doc) := by
  simp only [write, s.caller_day, if_true, hdoc]

theorem write_missing (hdoc : docs.lookup day = none) :
    write z docs s.toCall hours true = docs := by
  simp only [write, s.caller_day, if_true, hdoc]

theorem write_set : write z docs s.toCall hours false = docs.set day (s.newDoc z hours) := by
  simp only [write, s.caller_day, Bool.false_eq_true, if_false]

/-- A call whose steps follow each other is `saveFocusTime`. -/
theorem run_saveFocusTime (docs : Collection) (s : Session z day) :
    run (solo act) (docs, ⟨s, .toRead⟩) [.getHoursList, .get, .write]
      = some (saveFocusTime z docs s.toCall, ⟨s, .done⟩) := by
  have hrun : run (solo act) (docs, ⟨s, .toRead⟩) [.getHoursList, .get, .write]
      = some (write z docs s.toCall
          (s.hoursAfter z (getHoursList z docs s.readings.getListForHours))
          (docs.lookup (formatDate z s.caller)).isSome, ⟨s, .done⟩) := rfl
  rw [hrun]
  cases hdoc : docs.lookup (formatDate z s.caller) with
  | some doc =>
      rw [saveFocusTime_of_some hdoc, Option.isSome_some, s.caller_day,
        write_update (s.caller_day ▸ hdoc)]
  | none => rw [saveFocusTime_of_none hdoc, Option.isSome_none, s.caller_day, write_set]

theorem lookup_write_ne (focusDate : Bool) {date : Date} (hne : date ≠ day) :
    (write z docs s.toCall hours focusDate).lookup date = docs.lookup date := by
  cases focusDate with
  | true =>
      cases hdoc : docs.lookup day with
      | some doc => rw [write_update hdoc, lookup_set, if_neg hne]
      | none => rw [write_missing hdoc]
  | false => rw [write_set, lookup_set, if_neg hne]

variable (s hours)

/-- Where a document was seen, there is one still. -/
theorem lookup_write {focusDate : Bool} (h : focusDate = true → (docs.lookup day).isSome = true) :
    ∃ doc, (write z docs s.toCall hours focusDate).lookup day = some doc ∧ doc.hours = hours
      ∧ doc.totalTime
        = (if focusDate = true then getTimeOfTheDay docs day else 0) + s.duration := by
  cases focusDate with
  | true =>
      obtain ⟨doc, hdoc⟩ := Option.isSome_iff_exists.mp (h rfl)
      refine ⟨s.update hours doc, ?_, rfl, ?_⟩
      · rw [write_update hdoc, lookup_set, if_pos rfl]
      · rw [if_pos rfl, getTimeOfTheDay, hdoc]
        rfl
  | false =>
      refine ⟨s.newDoc z hours, ?_, rfl, ?_⟩
      · rw [write_set, lookup_set, if_pos rfl]
      · rw [if_neg (by simp), zero_add]
        rfl

theorem time_write {focusDate : Bool} (h : focusDate = true → (docs.lookup day).isSome = true) :
    getTimeOfTheDay (write z docs s.toCall hours focusDate) day
      = (if focusDate = true then getTimeOfTheDay docs day else 0) + s.duration := by
  obtain ⟨doc, hdoc, -, htime⟩ := lookup_write s hours h
  rw [← htime, getTimeOfTheDay, hdoc]
  rfl

theorem hoursOf_write {focusDate : Bool} (h : focusDate = true → (docs.lookup day).isSome = true) :
    hoursOf (write z docs s.toCall hours focusDate) day = hours := by
  obtain ⟨doc, hdoc, hhours, -⟩ := lookup_write s hours h
  rw [hoursOf, hdoc]
  exact hhours

theorem isSome_write (focusDate : Bool) (h : (docs.lookup day).isSome = true) :
    ((write z docs s.toCall hours focusDate).lookup day).isSome = true := by
  have hseen : focusDate = true → (docs.lookup day).isSome = true := fun _ => h
  obtain ⟨doc, hdoc, -, -⟩ := lookup_write s hours hseen
  rw [hdoc, Option.isSome_some]

end

/-! ## What has been saved -/

/-- The time a call has saved. -/
def savedTime (p : Save z day) : ℤ :=
  match p.stage with
  | .done => p.session.duration
  | _ => 0

/-- What it has saved in the hour `i`. -/
def savedAt (i : Fin 24) (p : Save z day) : ℤ :=
  match p.stage with
  | .done => if p.session.hour = i then p.session.diffInt else 0
  | _ => 0

/-- The day's record is what it was, and what the calls have saved. -/
structure Matches (docs : Collection) (c : Config Collection (Save z day)) : Prop where
  time : getTimeOfTheDay c.shared day
    = getTimeOfTheDay docs day + (c.clients.map savedTime).sum
  hours : ∀ i, hoursOf c.shared day i = hoursOf docs day i + (c.clients.map (savedAt i)).sum

/-- No call is under way. -/
def Settled (c : Config Collection (Save z day)) : Prop :=
  ∀ p ∈ c.clients, p.stage = .toRead ∨ p.stage = .done

/-- When the calls have finished, all of them are in the record. -/
def Kept (docs : Collection) (c : Config Collection (Save z day)) : Prop :=
  Settled c → Matches docs c

/-- A write is made from the list that is stored, and a document is set only
where there is no time to lose. -/
def Fresh (c : Config Collection (Save z day)) (e : ℕ × Action) : Prop :=
  e.2 = .write → ∀ s hours focusDate, c.clients[e.1]? = some ⟨s, .checked hours focusDate⟩ →
    (hours.getD fun _ => 0) = hoursOf c.shared day
      ∧ (focusDate = false → getTimeOfTheDay c.shared day = 0)

/-- Where a call has seen a document, there is one. -/
def Seen (c : Config Collection (Save z day)) : Prop :=
  ∀ p ∈ c.clients, ∀ hours, p.stage = .checked hours true → (c.shared.lookup day).isSome = true

variable {docs : Collection} {ss : List (Session z day)} {c c' : Config Collection (Save z day)}
  {e : ℕ × Action}

theorem stage_of_start {p : Save z day} (hp : p ∈ (start docs ss).clients) : p.stage = .toRead := by
  obtain ⟨s, -, rfl⟩ := List.mem_map.mp hp
  rfl

theorem sum_start (f : Save z day → ℤ) (hf : ∀ s, f ⟨s, .toRead⟩ = 0) :
    ((start docs ss).clients.map f).sum = 0 := by
  have hzero : ∀ x ∈ (start docs ss).clients.map f, x = 0 := by
    intro x hx
    obtain ⟨p, hp, rfl⟩ := List.mem_map.mp hx
    obtain ⟨s, -, rfl⟩ := List.mem_map.mp hp
    exact hf s
  exact List.sum_eq_zero hzero

theorem matches_start : Matches docs (start docs ss) where
  time := by
    rw [sum_start savedTime fun _ => rfl, add_zero]
    rfl
  hours i := by
    rw [sum_start (savedAt i) fun _ => rfl, add_zero]
    rfl

theorem seen_start : Seen (start docs ss) := by
  intro p hp hours hstage
  rw [stage_of_start hp] at hstage
  cases hstage

theorem Seen.step (h : Seen c) (hstep : step act c e = some c') : Seen c' := by
  obtain ⟨p, docs', p', hp, hact, rfl⟩ := step_cases hstep
  obtain ⟨s, ⟨rfl, -, rfl, rfl⟩ | ⟨hours, rfl, -, rfl, rfl⟩
    | ⟨hours, focusDate, rfl, -, rfl, rfl⟩⟩ := act_cases hact
  · apply forall_mem_set e.1 h
    intro hours hstage
    cases hstage
  · apply forall_mem_set e.1 h
    intro hours' hstage
    rw [Stage.checked.injEq] at hstage
    exact hstage.2
  · have hother : ∀ q ∈ c.clients, ∀ hours', q.stage = .checked hours' true →
        ((write z c.shared s.toCall (s.hoursAfter z hours) focusDate).lookup day).isSome = true :=
      fun q hq hours' hstage => isSome_write s _ focusDate (h q hq hours' hstage)
    apply forall_mem_set e.1 hother
    intro hours' hstage
    cases hstage

theorem fresh_iff {s : Session z day} {hours : Option Hours} {focusDate : Bool}
    (hp : c.clients[e.1]? = some ⟨s, .checked hours focusDate⟩) (ha : e.2 = .write) :
    Fresh c e ↔ (hours.getD fun _ => 0) = hoursOf c.shared day
      ∧ (focusDate = false → getTimeOfTheDay c.shared day = 0) := by
  unfold Fresh
  rw [hp]
  simp only [ha, true_imp_iff, Option.some.injEq, Save.mk.injEq, Stage.checked.injEq]
  constructor
  · intro hf
    exact hf s hours focusDate ⟨rfl, rfl, rfl⟩
  · rintro hf _ _ _ ⟨-, rfl, rfl⟩
    exact hf

/-- A step that saves nothing, and writes nothing, leaves the record as it is. -/
theorem Matches.of_idle {i : ℕ} {p p' : Save z day} (h : Matches docs c)
    (hp : c.clients[i]? = some p) (htime : savedTime p' = savedTime p)
    (hhours : ∀ k, savedAt k p' = savedAt k p) : Matches docs ⟨c.shared, c.clients.set i p'⟩ where
  time := by
    rw [map_set_of_eq hp htime]
    exact h.time
  hours k := by
    rw [map_set_of_eq hp (hhours k)]
    exact h.hours k

/-- Only a write can upset the record, and does when it is not fresh. -/
theorem matches_step_iff (hseen : Seen c) (h : Matches docs c) (hstep : step act c e = some c') :
    Matches docs c' ↔ Fresh c e := by
  obtain ⟨p, docs', p', hp, hact, rfl⟩ := step_cases hstep
  obtain ⟨s, ⟨rfl, ha, rfl, rfl⟩ | ⟨hours, rfl, ha, rfl, rfl⟩
    | ⟨hours, focusDate, rfl, ha, rfl, rfl⟩⟩ := act_cases hact
  · exact iff_of_true (h.of_idle hp rfl fun _ => rfl) (by simp [Fresh, ha])
  · exact iff_of_true (h.of_idle hp rfl fun _ => rfl) (by simp [Fresh, ha])
  · -- the write: each half of `Fresh` is what one half of the record asks for
    have htime := sum_map_set savedTime ⟨s, .done⟩ c.clients e.1 _ hp
    have hhours := fun i => sum_map_set (savedAt i) ⟨s, .done⟩ c.clients e.1 _ hp
    have hsome : focusDate = true → (c.shared.lookup day).isSome = true := by
      rintro rfl
      exact hseen _ (List.mem_of_getElem? hp) hours rfl
    have hnewTime := time_write s (s.hoursAfter z hours) hsome
    have hnewHours := hoursOf_write s (s.hoursAfter z hours) hsome
    have hMtime := h.time
    rw [fresh_iff hp ha]
    constructor
    · intro hm
      refine ⟨funext fun i => ?_, fun hset => ?_⟩
      · have hi := hm.hours i
        rw [hnewHours, hoursAfter_apply, hhours] at hi
        have hci := h.hours i
        simp only [savedAt] at hi hci
        omega
      · have ht := hm.time
        rw [hnewTime, htime, hset, if_neg (by simp)] at ht
        simp only [savedTime] at ht hMtime
        omega
    · rintro ⟨hlist, hset⟩
      refine ⟨?_, fun i => ?_⟩
      · rw [hnewTime, htime]
        simp only [savedTime] at hMtime ⊢
        cases focusDate with
        | true =>
            rw [if_pos rfl]
            omega
        | false =>
            have hzero := hset rfl
            rw [if_neg (by simp)]
            omega
      · have hci := h.hours i
        rw [hnewHours, hoursAfter_apply, hhours, hlist]
        simp only [savedAt] at hci ⊢
        omega

/-- The record is never upset exactly when every write is fresh. -/
theorem always_matches_iff (docs : Collection) (ss : List (Session z day))
    (es : List (ℕ × Action)) :
    Always (step act) (Matches docs) (start docs ss) es
      ↔ Meets (step act) Fresh (start docs ss) es := by
  have hinv : ∀ (c : Config Collection (Save z day)) e c', Seen c → Matches docs c →
      step act c e = some c' →
      Fresh c e → Seen c' := fun _ _ _ hseen _ hstep _ => hseen.step hstep
  have hiff : ∀ (c : Config Collection (Save z day)) e c', Seen c → Matches docs c →
      step act c e = some c' →
      (Matches docs c' ↔ Fresh c e) := fun _ _ _ hseen h hstep => matches_step_iff hseen h hstep
  exact always_iff_meets hinv hiff seen_start matches_start es

/-! ## Without a race -/

/-- A session too short to add to an hour, and of no time where the day has no
document. -/
def Blank (docs : Collection) (s : Session z day) : Prop :=
  inSeconds (s.endTime.difference s.startTime) = 0
    ∧ (docs.lookup day = none → s.duration = 0)

/-- No session is saved next to one that is not blank. -/
def NoRace (docs : Collection) (ss : List (Session z day)) : Prop :=
  ∀ (i j : ℕ) (s s' : Session z day), i ≠ j → ss[i]? = some s → ss[j]? = some s' → Blank docs s

/-- The day each call reads the list of has the entries of its own day. -/
def ReadsDay (docs : Collection) (ss : List (Session z day)) : Prop :=
  ∀ s ∈ ss, hoursOf docs (formatDate z s.readings.getListForHours) = hoursOf docs day

theorem blank_iff {s : Session z day} :
    Blank docs s ↔ s.diffInt = 0 ∧ (docs.lookup day = none → s.duration = 0) := by
  unfold Blank Call.diffInt differenceInt
  rw [total_eq_zero_iff s.inSeconds_nonneg]

/-- Without a race, what holds of every state: a list in hand is still the one
the day began with. -/
structure Calm (docs : Collection) (ss : List (Session z day))
    (c : Config Collection (Save z day)) : Prop extends Matches docs c where
  seen : Seen c
  sessions : c.clients.map (·.session) = ss
  elsewhere : ∀ date, date ≠ day → c.shared.lookup date = docs.lookup date
  stays : (docs.lookup day).isSome = true → (c.shared.lookup day).isSome = true
  read : ∀ p ∈ c.clients, ∀ hours, p.stage = .read hours →
    (hours.getD fun _ => 0) = hoursOf docs day
  checked : ∀ p ∈ c.clients, ∀ hours focusDate, p.stage = .checked hours focusDate →
    (hours.getD fun _ => 0) = hoursOf docs day ∧ (focusDate = false → docs.lookup day = none)

theorem calm_start : Calm docs ss (start docs ss) where
  toMatches := matches_start
  seen := seen_start
  sessions := by simp [start, Function.comp_def]
  elsewhere _ _ := rfl
  stays := id
  read := by
    intro p hp hours hstage
    rw [stage_of_start hp] at hstage
    cases hstage
  checked := by
    intro p hp hours focusDate hstage
    rw [stage_of_start hp] at hstage
    cases hstage

namespace Calm

variable (h : Calm docs ss c) (hrace : NoRace docs ss)

include h hrace

/-- While one call has not finished, the others have added nothing. -/
theorem blank_of_done {i j : ℕ} {p q : Save z day} (hp : c.clients[i]? = some p)
    (hpend : p.stage ≠ .done) (hq : c.clients[j]? = some q) (hdone : q.stage = .done) :
    Blank docs q.session := by
  have hsession : ∀ (k : ℕ) (r : Save z day), c.clients[k]? = some r → ss[k]? = some r.session := by
    intro k r hr
    rw [← h.sessions, List.getElem?_map, hr]
    rfl
  have hne : j ≠ i := by
    rintro rfl
    rw [hp, Option.some.injEq] at hq
    exact hpend (hq ▸ hdone)
  exact hrace j i q.session p.session hne (hsession j q hq) (hsession i p hp)

theorem hoursOf_eq {i : ℕ} {p : Save z day} (hp : c.clients[i]? = some p)
    (hpend : p.stage ≠ .done) : hoursOf c.shared day = hoursOf docs day := by
  funext k
  have hzero : ∀ x ∈ c.clients.map (savedAt k), x = 0 := by
    intro x hx
    obtain ⟨q, hq, rfl⟩ := List.mem_map.mp hx
    obtain ⟨j, hj⟩ := List.mem_iff_getElem?.mp hq
    unfold savedAt
    split
    · next hdone =>
      rw [(blank_iff.mp (h.blank_of_done hrace hp hpend hj hdone)).1, ite_self]
    · rfl
  rw [h.hours k, List.sum_eq_zero hzero, add_zero]

theorem getTimeOfTheDay_eq {i : ℕ} {p : Save z day} (hp : c.clients[i]? = some p)
    (hpend : p.stage ≠ .done) (hnone : docs.lookup day = none) :
    getTimeOfTheDay c.shared day = 0 := by
  have hzero : ∀ x ∈ c.clients.map savedTime, x = 0 := by
    intro x hx
    obtain ⟨q, hq, rfl⟩ := List.mem_map.mp hx
    obtain ⟨j, hj⟩ := List.mem_iff_getElem?.mp hq
    unfold savedTime
    split
    · next hdone => exact (h.blank_of_done hrace hp hpend hj hdone).2 hnone
    · rfl
  rw [h.time, List.sum_eq_zero hzero, add_zero, getTimeOfTheDay, hnone]
  rfl

theorem fresh : Fresh c e := by
  intro ha s hours focusDate hp
  obtain ⟨hlist, hnone⟩ := h.checked _ (List.mem_of_getElem? hp) hours focusDate rfl
  have hpend : (⟨s, .checked hours focusDate⟩ : Save z day).stage ≠ .done := by simp
  exact ⟨hlist.trans (h.hoursOf_eq hrace hp hpend).symm,
    fun hset => h.getTimeOfTheDay_eq hrace hp hpend (hnone hset)⟩

theorem step (hread : ReadsDay docs ss) (hstep : Interleave.step act c e = some c') :
    Calm docs ss c' := by
  have hmatches : Matches docs c' :=
    (matches_step_iff h.seen h.toMatches hstep).mpr (h.fresh hrace)
  have hseen : Seen c' := h.seen.step hstep
  obtain ⟨p, docs', p', hp, hact, rfl⟩ := step_cases hstep
  have hsessions := (map_set_of_eq hp (act_session hact)).trans h.sessions
  have hmem : p ∈ c.clients := List.mem_of_getElem? hp
  obtain ⟨s, ⟨rfl, ha, rfl, rfl⟩ | ⟨hours, rfl, ha, rfl, rfl⟩
    | ⟨hours, focusDate, rfl, ha, rfl, rfl⟩⟩ := act_cases hact
  · -- the list is read: of its own day, or of one no call writes to
    have hs : s ∈ ss := by
      rw [← h.sessions]
      exact List.mem_map_of_mem hmem
    have hlist : hoursOf c.shared (formatDate z s.readings.getListForHours) = hoursOf docs day := by
      by_cases hday : formatDate z s.readings.getListForHours = day
      · rw [hday]
        exact h.hoursOf_eq hrace hp (by simp)
      · rw [← hread s hs, hoursOf, h.elsewhere _ hday]
        rfl
    refine ⟨hmatches, hseen, hsessions, h.elsewhere, h.stays, ?_, ?_⟩
    · apply forall_mem_set e.1 h.read
      intro hours hstage
      rw [Stage.read.injEq] at hstage
      rw [← hstage]
      exact hlist
    · apply forall_mem_set e.1 h.checked
      intro hours focusDate hstage
      cases hstage
  · refine ⟨hmatches, hseen, hsessions, h.elsewhere, h.stays, ?_, ?_⟩
    · apply forall_mem_set e.1 h.read
      intro hours' hstage
      cases hstage
    · apply forall_mem_set e.1 h.checked
      intro hours' focusDate hstage
      rw [Stage.checked.injEq] at hstage
      obtain ⟨rfl, rfl⟩ := hstage
      refine ⟨h.read _ hmem hours rfl, fun hset => ?_⟩
      -- a document that was there at the start would have been seen
      by_contra hsome
      have hshared := h.stays (Option.ne_none_iff_isSome.mp hsome)
      rw [hshared] at hset
      cases hset
  · refine ⟨hmatches, hseen, hsessions, fun date hne => ?_, fun hsome => ?_, ?_, ?_⟩
    · exact (lookup_write_ne focusDate hne).trans (h.elsewhere date hne)
    · exact isSome_write s _ focusDate (h.stays hsome)
    · apply forall_mem_set e.1 h.read
      intro hours' hstage
      cases hstage
    · apply forall_mem_set e.1 h.checked
      intro hours' focusDate' hstage
      cases hstage

end Calm

/-! ## With a race

A call that writes last leaves in the list what it has read and its own session. -/

theorem clients_of_getElem? (docs : Collection) {i : ℕ} {s : Session z day} (hi : ss[i]? = some s) :
    (start docs ss).clients[i]? = some ⟨s, .toRead⟩ := by
  rw [start, List.getElem?_map, hi]
  rfl

theorem settled_start (docs : Collection) (ss : List (Session z day)) :
    Settled (start docs ss) := fun _ hp => .inl (stage_of_start hp)

/-- The first two steps of a call change nothing in the store. -/
theorem run_reads (docs : Collection) (s : Session z day) :
    run (solo act) (docs, ⟨s, .toRead⟩) [.getHoursList, .get]
      = some (docs, ⟨s, .checked (getHoursList z docs s.readings.getListForHours)
          (docs.lookup day).isSome⟩) := by
  simp only [run_cons, run_nil, solo, act, Option.bind_some, s.caller_day]

theorem run_write (docs : Collection) (s : Session z day) (hours : Option Hours)
    (focusDate : Bool) :
    run (solo act) (docs, ⟨s, .checked hours focusDate⟩) [.write]
      = some (write z docs s.toCall (s.hoursAfter z hours) focusDate, ⟨s, .done⟩) := rfl

/-- One call is made alone. -/
theorem run_alone (docs : Collection) {i : ℕ} {s : Session z day} (hi : ss[i]? = some s) :
    ∃ es c, run (step act) (start docs ss) es = some c ∧ Settled c
      ∧ hoursOf c.shared day = s.hoursAfter z (getHoursList z docs s.readings.getListForHours)
      ∧ ∀ k, (c.clients.map (savedAt k)).sum = savedAt k ⟨s, .done⟩ := by
  have hclient := clients_of_getElem? docs hi
  have hown := run_trans _ (run_reads docs s) (run_write docs s _ _)
  refine ⟨_, _, run_solo hclient hown, ?_, hoursOf_write s _ id, fun k => ?_⟩
  · exact forall_mem_set i (settled_start docs ss) (.inr rfl)
  · have hsum := sum_map_set (savedAt k) ⟨s, .done⟩ _ i _ hclient
    rw [sum_start (savedAt k) fun _ => rfl] at hsum
    exact hsum.trans (by simp [savedAt])

/-- One call reads, another reads, and then they write, the other one last. -/
theorem run_race (docs : Collection) {i j : ℕ} {s s' : Session z day} (hij : i ≠ j)
    (hi : ss[i]? = some s) (hj : ss[j]? = some s') :
    ∃ es c, run (step act) (start docs ss) es = some c ∧ Settled c
      ∧ hoursOf c.shared day = s'.hoursAfter z (getHoursList z docs s'.readings.getListForHours)
      ∧ (docs.lookup day = none → getTimeOfTheDay c.shared day = s'.duration)
      ∧ ∀ f : Save z day → ℤ, (∀ r, f ⟨r, .toRead⟩ = 0) →
          (c.clients.map f).sum = f ⟨s, .done⟩ + f ⟨s', .done⟩ := by
  have hi₀ := clients_of_getElem? docs hi
  have hj₀ := clients_of_getElem? docs hj
  obtain ⟨es, hrun⟩ := run_overlap hij hi₀ hj₀ (run_reads docs s) (run_reads docs s')
    (run_write docs s _ _) (run_write _ s' _ _)
  have hsettled : Settled ⟨docs, ((start docs ss).clients.set i ⟨s, .done⟩).set j ⟨s', .done⟩⟩ :=
    forall_mem_set j (forall_mem_set i (settled_start docs ss) (.inr rfl)) (.inr rfl)
  refine ⟨es, _, hrun, hsettled, hoursOf_write s' _ fun h => isSome_write s _ _ h, ?_, ?_⟩
  · intro hnone
    have hseen : (docs.lookup day).isSome = false := by rw [hnone, Option.isSome_none]
    rw [hseen, time_write s' _ (by simp), if_neg (by simp), zero_add]
  · intro f hf
    have hsum := sum_map_set_set f ⟨s, .done⟩ ⟨s', .done⟩ hij hi₀ hj₀
    rw [sum_start f hf, hf, hf] at hsum
    exact hsum.trans (by omega)

/-- **Every save is kept**, in a run where every write is fresh; and in every run
exactly when no session is saved next to one that adds anything, and each list
that is read has what its own day's has. -/
theorem saves_kept_iff (docs : Collection) (ss : List (Session z day)) :
    (∀ es, Meets (step act) Fresh (start docs ss) es →
        Always (step act) (Kept docs) (start docs ss) es)
      ∧ ((∀ es, Always (step act) (Kept docs) (start docs ss) es)
        ↔ NoRace docs ss ∧ ReadsDay docs ss) := by
  refine ⟨fun es hmeets pre hpre c hrun _ => ?_, fun h => ?_, ?_⟩
  · exact (always_matches_iff docs ss es).mpr hmeets pre hpre c hrun
  · have hread : ReadsDay docs ss := by
      intro s hs
      obtain ⟨i, hi⟩ := List.mem_iff_getElem?.mp hs
      obtain ⟨es, c, hrun, hsettled, hhours, hsum⟩ := run_alone docs hi
      have hmatches := h es es (List.prefix_refl es) c hrun hsettled
      funext k
      have hk := hmatches.hours k
      rw [hhours, hsum, hoursAfter_apply, getHoursList_getD] at hk
      simp only [savedAt] at hk
      omega
    refine ⟨fun i j s s' hij hi hj => ?_, hread⟩
    obtain ⟨es, c, hrun, hsettled, hhours, htime, hsum⟩ := run_race docs hij hi hj
    have hmatches := h es es (List.prefix_refl es) c hrun hsettled
    rw [blank_iff]
    constructor
    · have hk := hmatches.hours s.hour
      rw [hhours, hsum _ fun _ => rfl, hoursAfter_apply, getHoursList_getD,
        hread s' (List.mem_of_getElem? hj)] at hk
      simp only [savedAt, if_true] at hk
      omega
    · intro hnone
      have ht := hmatches.time
      rw [htime hnone, hsum _ fun _ => rfl, getTimeOfTheDay, hnone] at ht
      simp only [savedTime, Option.map_none, Option.getD_none] at ht
      omega
  · rintro ⟨hrace, hread⟩ es pre hpre c hrun -
    have hstep : ∀ c e c', Calm docs ss c → step act c e = some c' → Calm docs ss c' :=
      fun c e c' hcalm hstep => hcalm.step hrace hread hstep
    exact (run_invariant _ hstep calm_start hrun).toMatches

/-- Ten minutes of the morning of 1 June, and the five minutes after them. -/
def tenOClock : Session utc ⟨2022, 6, 1⟩ where
  toCall := morning
  hour := 10
  caller_day := by decide
  start_day := by decide
  end_day := by decide
  start_hour := by decide
  end_hour := by decide

def tenPastTen : Session utc ⟨2022, 6, 1⟩ where
  duration := 300
  caller := june 36900
  startTime := june 36600
  endTime := june 36900
  readings := .at (june 36900)
  duration_nonneg := by decide
  start_le_end := by decide
  inOrder := by decide
  hour := 10
  caller_day := by decide
  start_day := by decide
  end_day := by decide
  start_hour := by decide
  end_hour := by decide

/-- The first save is still under way when the second one begins. -/
def slowNetwork : List (ℕ × Action) :=
  [(0, .getHoursList), (0, .get), (1, .getHoursList), (1, .get), (0, .write), (1, .write)]

/-- Of fifteen minutes five are kept. -/
theorem not_always_saves_kept :
    ∃ c, run (step act) (start [] [tenOClock, tenPastTen]) slowNetwork = some c ∧ Settled c
      ∧ getTimeOfTheDay c.shared ⟨2022, 6, 1⟩ = 300 ∧ hoursOf c.shared ⟨2022, 6, 1⟩ 10 = 300
      ∧ ¬ Always (step act) (Kept []) (start [] [tenOClock, tenPastTen]) slowNetwork := by
  have hrun : run (step act) (start [] [tenOClock, tenPastTen]) slowNetwork
      = some ⟨[(⟨2022, 6, 1⟩, tenPastTen.newDoc utc (tenPastTen.hoursAfter utc none))],
          [⟨tenOClock, .done⟩, ⟨tenPastTen, .done⟩]⟩ := rfl
  have hsettled : Settled
      ⟨[(⟨2022, 6, 1⟩, tenPastTen.newDoc utc (tenPastTen.hoursAfter utc none))],
        [⟨tenOClock, .done⟩, ⟨tenPastTen, .done⟩]⟩ := by
    simp [Settled]
  refine ⟨_, hrun, hsettled, rfl, rfl, fun h => ?_⟩
  have htime := (h slowNetwork (List.prefix_refl _) _ hrun hsettled).time
  exact absurd htime (by decide)

end AquaFocus.FocusSaves
