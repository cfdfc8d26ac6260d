/-
The lists of tasks: `ifEventCompleted` of `today_list.dart`, `tag_list.dart` and
`all_list.dart`.

A tap marks its task, and where completed tasks are hidden it waits 400 ms,
takes the task off the list and hands it to `processCompletion`. The list of the
day and that of a tag take off what then stands where the task stood when it was
tapped; the list of all tasks takes off the task. `throughout_iff` says in which
orders of taps and delayed steps the first two do what the third one does in
every order. The list is read anew after `processCompletion`, which is a later
step than those here.
-/
import AquaFocus.AppTask
import AquaFocus.Lib.Runs
import Mathlib.Data.List.Induction

set_option autoImplicit false

open Runs

namespace AquaFocus.ListViews

/-! ## The screens -/

/-- A list as it is shown, with the task and the index each tap that waits has
kept, the tasks handed to `processCompletion` and those whose delayed step threw. -/
structure Screen where
  events : List AppTask
  waiting : List (AppTask × ℕ)
  processed : List AppTask
  thrown : List AppTask

/-- A list of tasks that were read. -/
def start (l : List AppTask) : Screen := ⟨l, [], [], []⟩

/-- A tap on a task, and the end of its delay. -/
inductive Event
  | tap (id : String)
  | wake (id : String)
deriving DecidableEq

/-- The marked task. -/
def complete (event : AppTask) : AppTask := { event with isCompleted := true }

/-- `ifEventCompleted` up to the delay, or to `processCompletion`. -/
def tap (showCompleted : Bool) (s : Screen) (id : String) : Option Screen :=
  (s.events.findIdx? (·.id = id)).bind fun index =>
    s.events[index]?.map fun event =>
      if event.isCompleted then s
      else if !showCompleted && decide (event.repeats = .never) then
        { s with
          events := s.events.set index (complete event)
          waiting := s.waiting ++ [(complete event, index)] }
      else
        { s with
          events := s.events.set index (complete event)
          processed := s.processed ++ [complete event] }

/-- `list.remove(event)`. -/
def remove (events : List AppTask) (event : AppTask) : List AppTask := events.eraseP (·.beq event)

/-- What a delayed step leaves of a list; `none` is a `RangeError`. -/
abbrev Removal : Type := List AppTask → AppTask → ℕ → Option (List AppTask)

/-- `list.remove(list[index])`. -/
def removeAt : Removal := fun events _ index => events[index]?.map (remove events)

/-- `list.remove(event)`, whatever the index. -/
def removeEvent : Removal := fun events event _ => some (remove events event)

/-- `ifEventCompleted` from the end of the delay to `processCompletion`. -/
def wake (removal : Removal) (s : Screen) (id : String) : Option Screen :=
  (s.waiting.find? (·.1.id = id)).map fun (event, index) =>
    match removal s.events event index with
    | some events =>
        { s with
          events := events
          waiting := s.waiting.filter (·.1.id ≠ id)
          processed := s.processed ++ [event] }
    | none =>
        { s with
          waiting := s.waiting.filter (·.1.id ≠ id)
          thrown := s.thrown ++ [event] }

def ifEventCompleted (removal : Removal) (showCompleted : Bool) (s : Screen) :
    Event → Option Screen
  | .tap id => tap showCompleted s id
  | .wake id => wake removal s id

def ListToday.ifEventCompleted : Bool → Screen → Event → Option Screen :=
  ListViews.ifEventCompleted removeAt

def ListTag.ifEventCompleted : Bool → Screen → Event → Option Screen :=
  ListViews.ifEventCompleted removeAt

def ListAll.ifEventCompleted : Bool → Screen → Event → Option Screen :=
  ListViews.ifEventCompleted removeEvent

/-! ## Orders of taps and delayed steps -/

/-- What a list with completed tasks hidden may show of tasks that do not repeat. -/
structure OneOff (l : List AppTask) : Prop where
  distinct : (l.map (·.id)).Nodup
  never : ∀ t ∈ l, t.repeats = .never
  todo : ∀ t ∈ l, t.isCompleted = false

/-- Taps on tasks of the list, each at most once, and for each at most one delayed
step, after it. -/
structure Schedule (l : List AppTask) (es : List Event) : Prop where
  once : es.Nodup
  taps : ∀ id, .tap id ∈ es → id ∈ l.map (·.id)
  wakes : ∀ before id, before ++ [.wake id] <+: es → .tap id ∈ before

/-- The tasks whose delayed step has come. -/
def woken (es : List Event) : List String :=
  es.filterMap fun
    | .tap _ => none
    | .wake id => some id

/-- A task as the list shows it. -/
def shown (es : List Event) (t : AppTask) : AppTask :=
  if .tap t.id ∈ es then complete t else t

/-- The tasks whose delayed step has not come, as the list shows them. -/
def remaining (es : List Event) (l : List AppTask) : List AppTask :=
  (l.filter fun t => .wake t.id ∉ es).map (shown es)

/-- After the events `es` the list is the one that was read less the tasks whose
delayed step has come; these were all handed to `processCompletion`. -/
structure Exact (l : List AppTask) (es : List Event) (s : Screen) : Prop where
  events : s.events = remaining es l
  processed : s.processed.map (·.id) = woken es
  thrown : s.thrown = []

/-- So it is throughout a schedule. -/
def Throughout (step : Screen → Event → Option Screen) (l : List AppTask) (es : List Event) :
    Prop :=
  ∀ before, before <+: es → ∃ s, run step (start l) before = some s ∧ Exact l before s

/-- Every task whose delayed step has come since `x` was tapped stands below `x`. -/
def Clear (l : List AppTask) (es : List Event) (x : String) : Prop :=
  ∀ before after y, es = before ++ .tap x :: after → .wake y ∈ after →
    (l.map (·.id)).idxOf x < (l.map (·.id)).idxOf y

/-- So it is whenever a delayed step comes. -/
def Untangled (l : List AppTask) (es : List Event) : Prop :=
  ∀ before x, before ++ [.wake x] <+: es → Clear l before x

/-! ## A list around one of its tasks -/

section Around

variable {u v : List AppTask} {e : AppTask}

theorem findIdx?_around (hu : ∀ t ∈ u, t.id ≠ e.id) :
    (u ++ e :: v).findIdx? (·.id = e.id) = some u.length := by
  induction u with
  | nil => simp [List.findIdx?_cons]
  | cons t u ih =>
      have ht : t.id ≠ e.id := hu t List.mem_cons_self
      rw [List.cons_append, List.findIdx?_cons, if_neg (by simpa using ht),
        ih fun t' ht' => hu t' (List.mem_cons_of_mem t ht')]
      rfl

theorem remove_around (hu : ∀ t ∈ u, t.id ≠ e.id) : remove (u ++ e :: v) e = u ++ v := by
  unfold remove
  have hother : ∀ t ∈ u, ¬ t.beq e = true := fun t ht => by
    rw [AppTask.beq_of_id_ne (hu t ht)]
    exact Bool.false_ne_true
  rw [List.eraseP_append_right _ hother,
    List.eraseP_cons_of_pos (p := fun t : AppTask => t.beq e) (AppTask.beq_self e)]

/-- At another index than its own there is another task. -/
theorem mem_of_getElem?_ne {k : ℕ} {e' : AppTask} (hk : k ≠ u.length)
    (h : (u ++ e :: v)[k]? = some e') : e' ∈ u ∨ e' ∈ v := by
  rcases Nat.lt_or_gt_of_ne hk with hlt | hgt
  · rw [List.getElem?_append_left hlt] at h
    exact .inl (List.mem_of_getElem? h)
  · obtain ⟨j, rfl⟩ := Nat.exists_eq_add_of_lt hgt
    rw [List.getElem?_append_right (by omega)] at h
    have hj : u.length + j + 1 - u.length = j + 1 := by omega
    rw [hj, List.getElem?_cons_succ] at h
    exact .inr (List.mem_of_getElem? h)

end Around

/-! ## The last event of a list -/

section Last

variable {es before after : List Event} {e f : Event}

/-- An event lies before the last one, or is the last one. -/
theorem snoc_eq_split (h : es ++ [e] = before ++ f :: after) :
    (es = before ∧ e = f ∧ after = []) ∨ ∃ after', es = before ++ f :: after' := by
  rcases List.eq_nil_or_concat after with rfl | ⟨after', g, rfl⟩
  · obtain ⟨rfl, he⟩ := List.append_inj' h rfl
    exact .inl ⟨rfl, (List.cons.inj he).1, rfl⟩
  · rw [List.concat_eq_append, ← List.cons_append, ← List.append_assoc] at h
    exact .inr ⟨after', (List.append_inj' h rfl).1⟩

theorem prefix_snoc (h : before ++ [f] <+: es ++ [e]) :
    (before = es ∧ f = e) ∨ before ++ [f] <+: es := by
  rcases List.prefix_concat_iff.mp h with heq | hpre
  · obtain ⟨rfl, he⟩ := List.append_inj' heq rfl
    exact .inl ⟨rfl, (List.cons.inj he).1⟩
  · exact .inr hpre

end Last

/-! ## One event -/

variable {l a b : List AppTask} {t : AppTask} {es : List Event} {s : Screen}

theorem complete_id (t : AppTask) : (complete t).id = t.id := rfl

theorem shown_id (es : List Event) (t : AppTask) : (shown es t).id = t.id := by
  unfold shown
  split <;> rfl

theorem mem_remaining {t' : AppTask} (h : t' ∈ remaining es l) :
    ∃ t ∈ l, .wake t.id ∉ es ∧ t' = shown es t := by
  obtain ⟨t, ht, rfl⟩ := List.mem_map.mp h
  obtain ⟨hmem, hwake⟩ := List.mem_filter.mp ht
  exact ⟨t, hmem, of_decide_eq_true hwake, rfl⟩

theorem remaining_around (ht : .wake t.id ∉ es) :
    remaining es (a ++ t :: b) = remaining es a ++ shown es t :: remaining es b := by
  unfold remaining
  rw [List.filter_append, List.filter_cons_of_pos (by simpa using ht), List.map_append,
    List.map_cons]

theorem remaining_woken (ht : .wake t.id ∈ es) :
    remaining es (a ++ t :: b) = remaining es a ++ remaining es b := by
  unfold remaining
  rw [List.filter_append, List.filter_cons_of_neg (by simpa using ht), List.map_append]

/-- An event of one task changes nothing of the others. -/
theorem remaining_snoc {e : Event} {x : String} (he : e = .tap x ∨ e = .wake x)
    (hne : ∀ t' ∈ a, t'.id ≠ x) : remaining (es ++ [e]) a = remaining es a := by
  have hmem : ∀ f : Event, f ≠ e → (f ∈ es ++ [e] ↔ f ∈ es) := fun f hf => by
    rw [List.mem_append, List.mem_singleton, or_iff_left hf]
  have htap : ∀ t' ∈ a, Event.tap t'.id ≠ e := by
    rintro t' ht' rfl
    simp [hne t' ht'] at he
  have hwake : ∀ t' ∈ a, Event.wake t'.id ≠ e := by
    rintro t' ht' rfl
    simp [hne t' ht'] at he
  have hfilter : a.filter (fun t => decide (.wake t.id ∉ es ++ [e]))
      = a.filter fun t => decide (.wake t.id ∉ es) := by
    apply List.filter_congr
    intro t' ht'
    simp only [hmem _ (hwake t' ht')]
  unfold remaining
  rw [hfilter]
  apply List.map_congr_left
  intro t' ht'
  simp only [shown, hmem _ (htap t' (List.mem_filter.mp ht').1)]

theorem ids_around (hl : OneOff (a ++ t :: b)) :
    (∀ t' ∈ a, t'.id ≠ t.id) ∧ ∀ t' ∈ b, t'.id ≠ t.id := by
  have hnodup := hl.distinct
  rw [List.map_append, List.map_cons, List.nodup_append, List.nodup_cons] at hnodup
  obtain ⟨-, ⟨hb, -⟩, ha⟩ := hnodup
  refine ⟨fun t' ht' => ?_, fun t' ht' hid => hb (hid ▸ List.mem_map_of_mem ht')⟩
  exact ha _ (List.mem_map_of_mem ht') _ List.mem_cons_self

/-- A task stands below `t` exactly when it is not one of those above it. -/
theorem idxOf_around (hl : OneOff (a ++ t :: b)) :
    ((a ++ t :: b).map (·.id)).idxOf t.id = a.length
      ∧ ∀ y, y ≠ t.id → (((a ++ t :: b).map (·.id)).idxOf t.id
          < ((a ++ t :: b).map (·.id)).idxOf y ↔ y ∉ a.map (·.id)) := by
  have ht : t.id ∉ a.map (·.id) := fun hmem => by
    obtain ⟨t', ht', hid⟩ := List.mem_map.mp hmem
    exact (ids_around hl).1 t' ht' hid
  have hlen : ((a ++ t :: b).map (·.id)).idxOf t.id = a.length := by
    rw [List.map_append, List.map_cons, List.idxOf_append_of_notMem ht, List.idxOf_cons_self,
      List.length_map, add_zero]
  refine ⟨hlen, fun y hy => ?_⟩
  rw [hlen, List.map_append, List.map_cons]
  by_cases hmem : y ∈ a.map (·.id)
  · have hlt := List.idxOf_lt_length_of_mem hmem
    rw [List.length_map] at hlt
    rw [List.idxOf_append_of_mem hmem]
    exact iff_of_false (by omega) fun hnot => hnot hmem
  · rw [List.idxOf_append_of_notMem hmem, List.idxOf_cons_ne _ hy.symm, List.length_map]
    exact iff_of_true (by omega) hmem

/-- A task stands at one place of the list. -/
theorem around_unique {a' b' : List AppTask} {t' : AppTask} (hl : OneOff (a ++ t :: b))
    (heq : a ++ t :: b = a' ++ t' :: b') (hid : t'.id = t.id) : a' = a ∧ t' = t := by
  have hlen := (idxOf_around hl).1
  rw [heq] at hlen hl
  rw [← hid, (idxOf_around hl).1] at hlen
  obtain ⟨rfl, hcons⟩ := List.append_inj heq hlen.symm
  exact ⟨rfl, (List.cons.inj hcons).1.symm⟩

theorem ids_remaining (ha : ∀ t' ∈ a, t'.id ≠ t.id) : ∀ t' ∈ remaining es a, t'.id ≠ t.id := by
  intro t' ht'
  obtain ⟨t'', ht'', -, rfl⟩ := mem_remaining ht'
  rw [shown_id]
  exact ha t'' ht''

/-- What is known of a list that has been exact: each tap that waits has kept its
task, and the number of tasks that stood above it. -/
structure Holds (l : List AppTask) (es : List Event) (s : Screen) : Prop extends Exact l es s where
  kept : ∀ before after t a b, es = before ++ .tap t.id :: after → l = a ++ t :: b →
    .wake t.id ∉ es →
    s.waiting.find? (·.1.id = t.id) = some (complete t, (remaining before a).length)
  tapped : ∀ w ∈ s.waiting, .tap w.1.id ∈ es

theorem holds_start (l : List AppTask) : Holds l [] (start l) where
  events := by
    have hall : l.filter (fun t => decide (.wake t.id ∉ ([] : List Event))) = l :=
      List.filter_eq_self.mpr fun t _ => by simp
    unfold remaining
    rw [hall]
    exact (List.map_id l).symm
  processed := rfl
  thrown := rfl
  kept before after t a b hes := by simp at hes
  tapped w hw := by simp [start] at hw

namespace Schedule

theorem of_prefix {before : List Event} (h : Schedule l es) (hpre : before <+: es) :
    Schedule l before where
  once := h.once.sublist hpre.sublist
  taps id hid := h.taps id (hpre.subset hid)
  wakes before' id hpre' := h.wakes before' id (hpre'.trans hpre)

theorem init {e : Event} (h : Schedule l (es ++ [e])) : Schedule l es :=
  h.of_prefix (List.prefix_append es [e])

theorem fresh {e : Event} (h : Schedule l (es ++ [e])) : e ∉ es := fun hmem =>
  (List.nodup_append.mp h.once).2.2 _ hmem _ (List.mem_singleton_self e) rfl

/-- A delayed step comes after its tap. -/
theorem tap_of_wake (h : Schedule l es) {x : String} (hx : .wake x ∈ es) : .tap x ∈ es := by
  obtain ⟨before, after, rfl⟩ := List.append_of_mem hx
  have hpre : before ++ [.wake x] <+: before ++ .wake x :: after := ⟨after, by simp⟩
  exact List.mem_append_left _ (h.wakes before x hpre)

/-- The task an event is about, among the others. -/
theorem exists_around (h : Schedule l es) {x : String} (hx : .tap x ∈ es) :
    ∃ a t b, l = a ++ t :: b ∧ t.id = x := by
  obtain ⟨t, ht, hid⟩ := List.mem_map.mp (h.taps x hx)
  obtain ⟨a, b, hab⟩ := List.append_of_mem ht
  exact ⟨a, t, b, hab, hid⟩

end Schedule

/-- A tap marks its task and keeps its index. -/
theorem holds_tap (hl : OneOff l) {x : String} (hes : Schedule l (es ++ [.tap x]))
    (h : Holds l es s) : ∃ s', tap false s x = some s' ∧ Holds l (es ++ [.tap x]) s' := by
  obtain ⟨a, t, b, rfl, rfl⟩ := hes.exists_around (x := x) (by simp)
  have hwake : .wake t.id ∉ es := fun hmem => hes.fresh (hes.init.tap_of_wake hmem)
  have hwake' : .wake t.id ∉ es ++ [.tap t.id] := by simpa using hwake
  obtain ⟨ha, hb⟩ := ids_around hl
  have ht : t ∈ a ++ t :: b := by simp
  have hshown : shown es t = t := if_neg hes.fresh
  have hevents := h.events
  rw [remaining_around hwake, hshown] at hevents
  have habove : ∀ t' ∈ remaining es a, t'.id ≠ t.id := ids_remaining ha
  have hfind := findIdx?_around (v := remaining es b) habove
  rw [← hevents] at hfind
  have hget : s.events[(remaining es a).length]? = some t := by
    rw [hevents, List.getElem?_append_right (le_refl _), Nat.sub_self, List.getElem?_cons_zero]
  refine ⟨{ s with
    events := s.events.set (remaining es a).length (complete t)
    waiting := s.waiting ++ [(complete t, (remaining es a).length)] }, ?_, ?_⟩
  · rw [tap, hfind, Option.bind_some, hget, Option.map_some, if_neg (by simp [hl.todo t ht]),
      if_pos (by simp [hl.never t ht])]
  have hnone : s.waiting.find? (·.1.id = t.id) = none := by
    rw [List.find?_eq_none]
    intro w hw hid
    exact hes.fresh (of_decide_eq_true hid ▸ h.tapped w hw)
  refine ⟨⟨?events, ?processed, h.thrown⟩, ?kept, ?tapped⟩
  case events =>
    rw [remaining_around hwake', remaining_snoc (.inl rfl) ha, remaining_snoc (.inl rfl) hb,
      hevents, List.set_append_right _ _ le_rfl, Nat.sub_self, List.set_cons_zero, shown,
      if_pos (by simp)]
  case processed =>
    rw [h.processed, woken, woken, List.filterMap_append]
    simp
  case kept =>
    intro before after t' a' b' hsplit hl' hwake'
    rcases snoc_eq_split hsplit with ⟨rfl, he, rfl⟩ | ⟨after', hes'⟩
    · rw [Event.tap.injEq] at he
      obtain ⟨rfl, rfl⟩ := around_unique hl hl' he.symm
      rw [List.find?_append, hnone, Option.none_or]
      simp [complete_id]
    · rw [List.find?_append, h.kept before after' t' a' b' hes' hl'
        fun hmem => hwake' (List.mem_append_left _ hmem), Option.some_or]
  case tapped =>
    intro w hw
    rcases List.mem_append.mp hw with hw | hw
    · exact List.mem_append_left _ (h.tapped w hw)
    · rw [List.mem_singleton.mp hw]
      simp [complete_id]

/-- What a delayed step finds: its task, as marked, in the list, and what the tap
has kept. -/
theorem Holds.found {x : String} (hes : Schedule l (es ++ [.wake x])) (h : Holds l es s) :
    ∃ a t b before after, l = a ++ t :: b ∧ t.id = x ∧ es = before ++ .tap t.id :: after
      ∧ s.waiting.find? (·.1.id = t.id) = some (complete t, (remaining before a).length)
      ∧ s.events = remaining es a ++ complete t :: remaining es b := by
  have htap : .tap x ∈ es := hes.wakes es x (List.prefix_refl _)
  obtain ⟨a, t, b, rfl, rfl⟩ := hes.init.exists_around htap
  obtain ⟨before, after, hsplit⟩ := List.append_of_mem htap
  have hshown : shown es t = complete t := if_pos htap
  refine ⟨a, t, b, before, after, rfl, rfl, hsplit,
    h.kept before after t a b hsplit rfl hes.fresh, ?_⟩
  rw [h.events, remaining_around hes.fresh, hshown]

/-- A delayed step that takes its task off the list. -/
theorem holds_wake {removal : Removal} {k : ℕ} (hl : OneOff (a ++ t :: b))
    (h : Holds (a ++ t :: b) es s)
    (hfind : s.waiting.find? (·.1.id = t.id) = some (complete t, k))
    (hremoval : removal s.events (complete t) k = some (remaining es a ++ remaining es b)) :
    ∃ s', wake removal s t.id = some s' ∧ Holds (a ++ t :: b) (es ++ [.wake t.id]) s' := by
  obtain ⟨ha, hb⟩ := ids_around hl
  refine ⟨{ s with
    events := remaining es a ++ remaining es b
    waiting := s.waiting.filter (·.1.id ≠ t.id)
    processed := s.processed ++ [complete t] }, ?_, ?_⟩
  · simp only [wake, hfind, Option.map_some, hremoval]
  refine ⟨⟨?events, ?processed, h.thrown⟩, ?kept, ?tapped⟩
  case events =>
    rw [remaining_woken (by simp), remaining_snoc (.inr rfl) ha, remaining_snoc (.inr rfl) hb]
  case processed =>
    rw [List.map_append, h.processed, woken, woken, List.filterMap_append]
    rfl
  case kept =>
    intro before after t' a' b' hsplit hl' hwake
    rcases snoc_eq_split hsplit with ⟨-, he, -⟩ | ⟨after', hes'⟩
    · cases he
    · have hkept := h.kept before after' t' a' b' hes' hl'
        fun hmem => hwake (List.mem_append_left _ hmem)
      have hne : t'.id ≠ t.id := fun hid => hwake (by simp [hid])
      rw [List.find?_filter, ← hkept]
      congr 1
      funext w
      by_cases hw : w.1.id = t'.id
      · simp [hw, hne]
      · simp [hw]
  case tapped =>
    intro w hw
    exact List.mem_append_left _ (h.tapped w (List.mem_filter.mp hw).1)

/-- At another index than that of its task, a delayed step takes off another task
or throws. -/
theorem not_exact_wake {k : ℕ} (hl : OneOff (a ++ t :: b))
    (hfind : s.waiting.find? (·.1.id = t.id) = some (complete t, k))
    (hevents : s.events = remaining es a ++ complete t :: remaining es b)
    (hk : k ≠ (remaining es a).length) {s' : Screen} (hwake : wake removeAt s t.id = some s') :
    ¬ Exact (a ++ t :: b) (es ++ [.wake t.id]) s' := by
  intro hexact
  obtain ⟨ha, hb⟩ := ids_around hl
  simp only [wake, hfind, Option.map_some, Option.some.injEq] at hwake
  unfold removeAt at hwake
  cases hget : s.events[k]? with
  | none =>
      rw [hget] at hwake
      have hthrown := hexact.thrown
      rw [← hwake] at hthrown
      simp at hthrown
  | some e =>
      rw [hget] at hwake
      -- the marked task stays
      have hid : e.id ≠ t.id := by
        rw [hevents] at hget
        rcases mem_of_getElem?_ne hk hget with hmem | hmem
        · exact ids_remaining ha e hmem
        · exact ids_remaining hb e hmem
      have hmem : complete t ∈ s'.events := by
        rw [← hwake]
        have hne : ¬ (complete t).beq e = true := by
          have hbeq : (complete t).beq e = false := AppTask.beq_of_id_ne (Ne.symm hid)
          rw [hbeq]
          exact Bool.false_ne_true
        exact (List.mem_eraseP_of_neg (p := fun t' : AppTask => t'.beq e) hne).mpr
          (by rw [hevents]; simp)
      rw [hexact.events] at hmem
      obtain ⟨t', -, hnot, heq⟩ := mem_remaining hmem
      apply hnot
      rw [← shown_id (es ++ [.wake t.id]) t', ← heq, complete_id]
      simp

/-! ## Whole orders -/

theorem length_remaining_eq_iff {before : List Event} (hsub : before ⊆ es) :
    (remaining before a).length = (remaining es a).length
      ↔ ∀ y ∈ a, .wake y.id ∈ es → .wake y.id ∈ before := by
  have hfilter : (a.filter fun t => decide (.wake t.id ∉ es))
      = (a.filter fun t => decide (.wake t.id ∉ before)).filter
        fun t => decide (.wake t.id ∉ es) := by
    rw [List.filter_filter]
    apply List.filter_congr
    intro t _
    by_cases ht : .wake t.id ∈ es
    · simp [ht]
    · have hnot : .wake t.id ∉ before := fun hmem => ht (hsub hmem)
      simp [ht, hnot]
  unfold remaining
  rw [List.length_map, List.length_map, hfilter, eq_comm, List.length_filter_eq_length_iff]
  constructor
  · intro h y hy hes
    by_contra hnot
    exact of_decide_eq_true (h y (List.mem_filter.mpr ⟨hy, decide_eq_true hnot⟩)) hes
  · intro h y hy
    obtain ⟨hmem, hnot⟩ := List.mem_filter.mp hy
    exact decide_eq_true fun hes => of_decide_eq_true hnot (h y hmem hes)

/-- The index a tap has kept is still its task's when only tasks below it have
been taken off. -/
theorem length_remaining_eq_iff_clear {before after : List Event} (hl : OneOff (a ++ t :: b))
    (honce : es.Nodup) (hsplit : es = before ++ .tap t.id :: after) (hwake : .wake t.id ∉ es) :
    (remaining before a).length = (remaining es a).length ↔ Clear (a ++ t :: b) es t.id := by
  have hsub : before ⊆ es := fun e he => hsplit ▸ List.mem_append_left _ he
  rw [length_remaining_eq_iff hsub]
  constructor
  · intro h before' after' y hsplit' hy
    have hmem : .wake y ∈ es := by
      rw [hsplit']
      exact List.mem_append_right _ (List.mem_cons_of_mem _ hy)
    have hne : y ≠ t.id := fun hid => hwake (hid ▸ hmem)
    rw [(idxOf_around hl).2 y hne]
    intro hya
    obtain ⟨y', hy', rfl⟩ := List.mem_map.mp hya
    -- so its delayed step had come before the tap, and comes again
    have hbefore := h y' hy' hmem
    rw [hsplit, List.nodup_append, List.nodup_cons] at honce
    obtain ⟨-, ⟨hafter, -⟩, hdisjoint⟩ := honce
    have hnot : .tap t.id ∉ before := fun hin => hdisjoint _ hin _ List.mem_cons_self rfl
    obtain ⟨rfl, -, rfl⟩ :=
      (List.append_cons_inj_of_notMem hnot hafter).mp (hsplit.symm.trans hsplit')
    exact hdisjoint _ hbefore _ (List.mem_cons_of_mem _ hy) rfl
  · intro h y hy hmem
    by_contra hnot
    have hafter : .wake y.id ∈ after := by
      rw [hsplit, List.mem_append, List.mem_cons] at hmem
      simpa [hnot] using hmem
    have hlt := h before after y.id hsplit hafter
    rw [(idxOf_around hl).2 y.id ((ids_around hl).1 y hy)] at hlt
    exact hlt (List.mem_map_of_mem hy)

/-- A delayed step of the list of the day, or of that of a tag, is right exactly
when only tasks below its own have been taken off since the tap. -/
theorem wake_removeAt (hl : OneOff l) {x : String} (hes : Schedule l (es ++ [.wake x]))
    (h : Holds l es s) :
    (Clear l es x → ∃ s', wake removeAt s x = some s' ∧ Holds l (es ++ [.wake x]) s')
      ∧ ∀ s', wake removeAt s x = some s' → Exact l (es ++ [.wake x]) s' → Clear l es x := by
  obtain ⟨a, t, b, before, after, rfl, rfl, hsplit, hfind, hevents⟩ := h.found hes
  have hclear := length_remaining_eq_iff_clear hl hes.init.once hsplit hes.fresh
  refine ⟨fun hc => ?_, fun s' hs' hexact => ?_⟩
  · refine holds_wake hl h hfind ?_
    rw [removeAt, hevents, hclear.mpr hc, List.getElem?_append_right le_rfl, Nat.sub_self,
      List.getElem?_cons_zero, Option.map_some,
      remove_around (e := complete t) (ids_remaining (ids_around hl).1)]
  · rw [← hclear]
    by_contra hne
    exact not_exact_wake hl hfind hevents hne hs' hexact

/-- A delayed step of the list of all tasks is always right. -/
theorem wake_removeEvent (hl : OneOff l) {x : String} (hes : Schedule l (es ++ [.wake x]))
    (h : Holds l es s) :
    ∃ s', wake removeEvent s x = some s' ∧ Holds l (es ++ [.wake x]) s' := by
  obtain ⟨a, t, b, before, after, rfl, rfl, -, hfind, hevents⟩ := h.found hes
  refine holds_wake hl h hfind ?_
  rw [removeEvent, hevents, remove_around (e := complete t) (ids_remaining (ids_around hl).1)]

section Orders

variable {removal : Removal} {C : List Event → Prop}

/-- Where every delayed step is right whose condition `C` holds of the events up to
it, a run keeps what is known. -/
theorem run_holds (hl : OneOff l) (hC : ∀ before es, before <+: es → C es → C before)
    (hwake : ∀ es x s, Schedule l (es ++ [.wake x]) → C (es ++ [.wake x]) → Holds l es s →
      ∃ s', wake removal s x = some s' ∧ Holds l (es ++ [.wake x]) s')
    (hes : Schedule l es) (hc : C es) :
    ∃ s, run (ifEventCompleted removal false) (start l) es = some s ∧ Holds l es s := by
  induction es using List.reverseRecOn with
  | nil => exact ⟨start l, rfl, holds_start l⟩
  | append_singleton es e ih =>
      obtain ⟨s, hrun, h⟩ := ih hes.init (hC _ _ (List.prefix_append es [e]) hc)
      rw [run_concat, hrun]
      cases e with
      | tap x => exact holds_tap hl hes h
      | wake x => exact hwake es x s hes hc h

theorem throughout_of (hl : OneOff l) (hC : ∀ before es, before <+: es → C es → C before)
    (hwake : ∀ es x s, Schedule l (es ++ [.wake x]) → C (es ++ [.wake x]) → Holds l es s →
      ∃ s', wake removal s x = some s' ∧ Holds l (es ++ [.wake x]) s')
    (hes : Schedule l es) (hc : C es) :
    Throughout (ifEventCompleted removal false) l es := by
  intro before hpre
  obtain ⟨s, hrun, h⟩ := run_holds hl hC hwake (hes.of_prefix hpre) (hC _ _ hpre hc)
  exact ⟨s, hrun, h.toExact⟩

end Orders

theorem Untangled.of_prefix (before es : List Event) (hpre : before <+: es) (h : Untangled l es) :
    Untangled l before := fun before' x hpre' => h before' x (hpre'.trans hpre)

theorem run_removeAt (hl : OneOff l) (hes : Schedule l es) (h : Untangled l es) :
    ∃ s, run (ifEventCompleted removeAt false) (start l) es = some s ∧ Holds l es s :=
  run_holds hl Untangled.of_prefix
    (fun es x _ hes hu h => (wake_removeAt hl hes h).1 (hu es x (List.prefix_refl _))) hes h

theorem untangled_of_throughout (hl : OneOff l) (hes : Schedule l es)
    (h : Throughout (ifEventCompleted removeAt false) l es) : Untangled l es := by
  induction es using List.reverseRecOn with
  | nil =>
      intro before x hpre
      simp at hpre
  | append_singleton es e ih =>
      have hu : Untangled l es :=
        ih hes.init fun before hpre => h before (hpre.trans (List.prefix_append es [e]))
      intro before x hpre
      rcases prefix_snoc hpre with ⟨rfl, rfl⟩ | hpre
      · -- the last event: up to it the list was exact, and it still is
        obtain ⟨s, hrun, hholds⟩ := run_removeAt hl hes.init hu
        obtain ⟨s', hrun', hexact⟩ := h _ (List.prefix_refl _)
        rw [run_concat, hrun] at hrun'
        exact (wake_removeAt hl hes hholds).2 s' hrun' hexact
      · exact hu before x hpre

/-- **Overlapping completions touch no other task** in the list of the day and in
that of a tag exactly when, whenever a delayed step comes, only tasks below its own
have been taken off since the tap; in the list of all tasks they never do. -/
theorem throughout_iff (hl : OneOff l) (hes : Schedule l es) :
    (Throughout (ListToday.ifEventCompleted false) l es ↔ Untangled l es)
      ∧ (Throughout (ListTag.ifEventCompleted false) l es ↔ Untangled l es)
      ∧ Throughout (ListAll.ifEventCompleted false) l es := by
  have hiff : Throughout (ifEventCompleted removeAt false) l es ↔ Untangled l es :=
    ⟨untangled_of_throughout hl hes, fun hu => throughout_of hl Untangled.of_prefix
      (fun es x _ hes hu h => (wake_removeAt hl hes h).1 (hu es x (List.prefix_refl _))) hes hu⟩
  refine ⟨hiff, hiff, ?_⟩
  exact throughout_of (C := fun _ => True) hl (fun _ _ _ _ => trivial)
    (fun es x s hes _ h => wake_removeEvent hl hes h) hes trivial

/-- A one-off task without a time. -/
def chore (id : String) : AppTask where
  title := id
  id := id
  description := none
  date := .ofMillis 0
  userId := none
  isCompleted := false
  hasTime := false
  time := none
  repeats := .never
  reminder := some .never
  tag := none
  streak := 0
  prevCompletionTime := .ofMillis 0

/-- The second task is tapped within 400 ms of the first, which stands above it. -/
def hasty : List Event := [.tap "a", .tap "b", .wake "a", .wake "b"]

theorem oneOff_chores : OneOff [chore "a", chore "b", chore "c"] where
  distinct := by decide
  never := by decide
  todo := by decide

theorem Schedule.snoc {e : Event} (h : Schedule l es) (he : e ∉ es)
    (htap : ∀ x, e = .tap x → x ∈ l.map (·.id)) (hwake : ∀ x, e = .wake x → .tap x ∈ es) :
    Schedule l (es ++ [e]) where
  once := List.nodup_append.mpr ⟨h.once, by simp, fun f hf g hg heq =>
    he (List.mem_singleton.mp hg ▸ heq ▸ hf)⟩
  taps x hx := by
    rcases List.mem_append.mp hx with hx | hx
    · exact h.taps x hx
    · exact htap x (List.mem_singleton.mp hx).symm
  wakes before x hpre := by
    rcases prefix_snoc hpre with ⟨rfl, hlast⟩ | hpre
    · exact hwake x hlast.symm
    · exact h.wakes before x hpre

theorem schedule_hasty : Schedule [chore "a", chore "b", chore "c"] hasty := by
  have hnil : Schedule [chore "a", chore "b", chore "c"] [] :=
    ⟨List.nodup_nil, by simp, by simp⟩
  have h₁ := hnil.snoc (e := .tap "a") (by decide) (by simp [chore]) (by simp)
  have h₂ := h₁.snoc (e := .tap "b") (by decide) (by simp [chore]) (by simp)
  have h₃ := h₂.snoc (e := .wake "a") (by decide) (by simp) (by simp)
  exact h₃.snoc (e := .wake "b") (by decide) (by simp) (by simp)

/-- The third task is taken off instead of the second; without a third one the
delayed step throws, and the second task is never completed. -/
theorem not_throughout :
    (∃ s, run (ListToday.ifEventCompleted false) (start [chore "a", chore "b", chore "c"]) hasty
        = some s ∧ s.events.map (·.id) = ["b"] ∧ s.processed.map (·.id) = ["a", "b"])
      ∧ ¬ Throughout (ListToday.ifEventCompleted false) [chore "a", chore "b", chore "c"] hasty
      ∧ ∃ s, run (ListTag.ifEventCompleted false) (start [chore "a", chore "b"]) hasty = some s
        ∧ s.processed.map (·.id) = ["a"] ∧ s.thrown.map (·.id) = ["b"] := by
  have hrun : ∃ s, run (ListToday.ifEventCompleted false)
      (start [chore "a", chore "b", chore "c"]) hasty = some s
        ∧ s.events.map (·.id) = ["b"] ∧ s.processed.map (·.id) = ["a", "b"] := ⟨_, rfl, rfl, rfl⟩
  refine ⟨hrun, fun h => ?_, ⟨_, rfl, rfl, rfl⟩⟩
  obtain ⟨s, hs, hevents, -⟩ := hrun
  obtain ⟨s', hs', hexact⟩ := h hasty (List.prefix_refl _)
  obtain rfl := Option.some.inj (hs.symm.trans hs')
  rw [hexact.events] at hevents
  exact absurd hevents (by decide)

theorem throughout_iff_hasty :
    (Throughout (ListToday.ifEventCompleted false) [chore "a", chore "b", chore "c"] hasty
        ↔ Untangled [chore "a", chore "b", chore "c"] hasty)
      ∧ (Throughout (ListTag.ifEventCompleted false) [chore "a", chore "b", chore "c"] hasty
        ↔ Untangled [chore "a", chore "b", chore "c"] hasty)
      ∧ Throughout (ListAll.ifEventCompleted false) [chore "a", chore "b", chore "c"] hasty :=
  throughout_iff oneOff_chores schedule_hasty

end AquaFocus.ListViews
