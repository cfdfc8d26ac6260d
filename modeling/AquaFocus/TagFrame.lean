/-
`newTag` of `add_task.dart` and what the tag list does with the tags it makes.

The tag screen puts an entry titled All before the stored tags, and
`getMatchyEvent` and the bin know it by its title. `dupTags` compares a new title
with the stored ones, All not being among them, so a user can name a tag so too.
Such a tag is shown with every task, and dropping it on the bin takes every
task's tag off (`touchesOwn_iff`).
-/
import AquaFocus.TagList

set_option autoImplicit false

open Dart Calls Runs

namespace AquaFocus.TagFrame

open TagList

/-! ## The dialog -/

/-- The `validator` of the title, with the error it shows. -/
def validator (tags : List Tags) : Option String → Option String
  | none => some "Tag name cannot be empty"
  | some value =>
      if Tags.isBlank value then some "Tag name cannot be empty"
      else if Tags.dupTags value tags then some "Tag name duplicated"
      else none

theorem validator_eq_none_iff {tags : List Tags} {value : String} :
    validator tags (some value) = none
      ↔ Tags.isBlank value = false ∧ ∀ tag ∈ tags, tag.title ≠ value := by
  have hdup : Tags.dupTags value tags = false ↔ ∀ tag ∈ tags, tag.title ≠ value := by
    simp [Tags.dupTags]
  rw [← hdup, validator]
  split
  · next hblank => simp [hblank]
  · next hblank =>
    split
    · next hdups => simp [hdups]
    · next hdups => simp [hblank, hdups]

variable {κ : Type} {uid : String} {s : Account κ} {tag : Tags}

/-- The dialog is done exactly when the title is valid. -/
theorem newTag_isSome_iff [DecidableEq κ] (key : AppTask → κ) (z : Zone) :
    (step key z uid s (.newTag tag)).isSome ↔ validator s.tags (some tag.title) = none := by
  simp only [step, validator]
  cases Tags.isBlank tag.title <;> cases Tags.dupTags tag.title s.tags <;> simp

/-- So a tag can be titled All, unless there is one already. -/
theorem newTag_all [DecidableEq κ] (key : AppTask → κ) (z : Zone) (color : String)
    (h : ∀ tag ∈ s.tags, tag.title ≠ "All") :
    (step key z uid s (.newTag ⟨"All", color⟩)).isSome := by
  rw [newTag_isSome_iff, validator_eq_none_iff]
  have hblank : Tags.isBlank "All" = false := by decide
  exact ⟨hblank, h⟩

/-! ## The tasks of a tag -/

/-- The list on the screen holds tasks that have tags, and are stored with them. -/
def Current (s : Account κ) : Prop :=
  ∀ task ∈ s.eventTagList, task.tag.isSome ∧
    ∃ d, s.world.tasks task.id = some d ∧ d.tag = task.tag

/-- A tag is shown with the tasks that carry it, in the order of the list, and the
bin leaves the others alone. -/
def TouchesOwn (uid : String) (tag : Tags) (s : Account κ) : Prop :=
  getMatchyEvent tag s.eventTagList = s.eventTagList.filter (·.tag = some tag.title)
    ∧ ∀ id d, s.world.tasks id = some d → d.tag ≠ some tag.title →
        (onAccept uid tag s).world.tasks id = some d

theorem current_of_loaded (h : Loaded uid s) : Current s := by
  intro task htask
  obtain ⟨id, d, hd, ⟨htag, -⟩, rfl⟩ := h.mem_eventTagList.mp htask
  exact ⟨htag, d, hd, rfl⟩

/-- The list is current in every state of a run. -/
theorem current_of_run [DecidableEq κ] {key : AppTask → κ} {z : Zone} {b : Bool}
    {as : List Action} (h : run (step key z uid) (start b) as = some s) : Current s :=
  current_of_loaded (run_invariant _ (fun _ _ _ hs hstep => hs.step hstep) (loaded_start uid b) h)

theorem getMatchyEvent_eq_filter_iff {eventTagList : List AppTask} :
    getMatchyEvent tag eventTagList = eventTagList.filter (·.tag = some tag.title)
      ↔ tag.title ≠ "All" ∨ ∀ task ∈ eventTagList, task.tag = some "All" := by
  unfold getMatchyEvent
  by_cases hall : tag.title = "All"
  · rw [if_pos hall, hall, eq_comm, List.filter_eq_self]
    simp
  · rw [if_neg hall]
    exact iff_of_true rfl (.inl hall)

/-- The tasks the bin goes through are stored. -/
theorem stored_of_current (h : Current s) :
    ∀ task ∈ getMatchyEvent tag s.eventTagList, (s.world.tasks task.id).isSome := by
  intro task htask
  have hlisted : task ∈ s.eventTagList := by
    unfold getMatchyEvent at htask
    split at htask
    · exact htask
    · exact List.mem_of_mem_filter htask
  obtain ⟨-, d, hd, -⟩ := h task hlisted
  rw [hd]
  rfl

/-- A task the bin does not go through keeps its tag, and those it goes through
carry the dropped one where the filter is right. -/
theorem onAccept_unchanged (h : Current s)
    (hown : getMatchyEvent tag s.eventTagList
      = s.eventTagList.filter (·.tag = some tag.title))
    {id : String} {d : TaskDoc} (hd : s.world.tasks id = some d)
    (hne : d.tag ≠ some tag.title) : (onAccept uid tag s).world.tasks id = some d := by
  have hnot : id ∉ (getMatchyEvent tag s.eventTagList).map (·.id) := by
    rw [hown, List.mem_map]
    rintro ⟨task, htask, rfl⟩
    obtain ⟨hlisted, hcarries⟩ := List.mem_filter.mp htask
    obtain ⟨-, d', hd', htag⟩ := h task hlisted
    rw [hd, Option.some.injEq] at hd'
    -- the document carries what the listed task does
    apply hne
    rw [hd', htag]
    exact of_decide_eq_true hcarries
  obtain ⟨w', haccept, hw'⟩ := onAccept_of_stored uid (stored_of_current h)
  rw [haccept, reload_world, hw' id, hd, Option.map_some, if_neg hnot]

/-- **A tag touches its own tasks** exactly when it is not titled All, or all the
tasks of the list carry that title. -/
theorem touchesOwn_iff (uid : String) (tag : Tags) (h : Current s) :
    TouchesOwn uid tag s
      ↔ tag.title ≠ "All" ∨ ∀ task ∈ s.eventTagList, task.tag = some "All" := by
  rw [← getMatchyEvent_eq_filter_iff]
  constructor
  · exact fun hown => hown.1
  · exact fun hown => ⟨hown, fun id d hd hne => onAccept_unchanged h hown hd hne⟩

/-- A tag, a task that carries it, and a second tag titled All. -/
def secondAll : List Action :=
  [.newTag ⟨"sport", "red"⟩,
    .createTask (noonOfJune 1) "uuid" "doc"
      { FormData.untimed 1654041600000 .never with tag := some "sport" },
    .newTag ⟨"All", "blue"⟩]

/-- The second tag is accepted; it is shown with the task of the first one, and
dropping it takes the first one's tag off the task. -/
theorem not_touchesOwn :
    ∃ s, run (step AppTask.id utc "uid") (start false) secondAll = some s
      ∧ (⟨"All", "blue"⟩ : Tags) ∈ s.tags
      ∧ ¬ TouchesOwn "uid" ⟨"All", "blue"⟩ s
      ∧ ∃ d d', s.world.tasks "doc" = some d ∧ d.tag = some "sport"
          ∧ (onAccept "uid" ⟨"All", "blue"⟩ s).world.tasks "doc" = some d' ∧ d'.tag = none := by
  refine ⟨_, rfl, by decide, ?_, _, _, rfl, rfl, rfl, rfl⟩
  rintro ⟨hshown, -⟩
  exact absurd (congrArg List.length hshown) (by decide)

/-- There the first tag touches its own task. -/
theorem touchesOwn_iff_sport :
    ∃ s, run (step AppTask.id utc "uid") (start false) secondAll = some s
      ∧ s.eventTagList.map (·.tag) = [some "sport"]
      ∧ TouchesOwn "uid" ⟨"sport", "red"⟩ s := by
  obtain ⟨s, hs, htags⟩ : ∃ s, run (step AppTask.id utc "uid") (start false) secondAll = some s
      ∧ s.eventTagList.map (·.tag) = [some "sport"] := ⟨_, rfl, rfl⟩
  refine ⟨s, hs, htags, ?_⟩
  exact (touchesOwn_iff "uid" ⟨"sport", "red"⟩ (current_of_run hs)).mpr (.inl (by decide))

end AquaFocus.TagFrame
