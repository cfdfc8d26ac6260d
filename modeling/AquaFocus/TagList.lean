/-
`lib/screens/Tasks/ListView/tag_list.dart`: the tag list, and the bin a tag is
dropped on.

A task names its tag by title, so deleting a tag has to find the tasks that name
it. The bin looks for them in the list the screen has loaded, and that list is
filtered by the account's `showCompleted`. The state here is what the store holds
together with that list; every operation ends by loading it again, as the screens
do. `tagsExist_iff` says when no task is left naming a tag that is gone.
-/
import AquaFocus.TaskOps
import AquaFocus.Lib.Runs

set_option autoImplicit false

open Dart Calls Runs

namespace AquaFocus

/-! ## Tags -/

/-- A document of the collection `users/<uid>/Tags`, stored under its title. -/
structure Tags where
  title : String
  color : String
deriving DecidableEq

namespace Tags

/-- The entry every list of tags on the screen begins with; it is not stored. -/
def all : Tags := ⟨"All", "default"⟩

/-- The characters `trim` removes. -/
def isTrimmed (ch : Char) : Bool :=
  let n := ch.toNat
  (9 ≤ n && n ≤ 13) || (0x2000 ≤ n && n ≤ 0x200A)
    || n ∈ [0x20, 0x85, 0xA0, 0x1680, 0x2028, 0x2029, 0x202F, 0x205F, 0x3000, 0xFEFF]

/-- `value.trim().isEmpty`. -/
def isBlank (value : String) : Bool := value.toList.all isTrimmed

/-- `dupTags`. -/
def dupTags (newTitle : String) (tags : List Tags) : Bool := tags.any (·.title == newTitle)

/-- `addTags`: the document of that title is set, whatever was there. -/
def addTags (newTag : Tags) (tags : List Tags) : List Tags :=
  newTag :: tags.filter (·.title != newTag.title)

/-- `removeTag`. -/
def removeTag (tag : Tags) (tags : List Tags) : List Tags := tags.filter (·.title != tag.title)

/-- The tag a form may hold: none, or one of the chips it offers. -/
def offers (tags : List Tags) (choice : Option String) : Bool :=
  choice.all (dupTags · tags)

theorem dupTags_iff {title : String} {tags : List Tags} :
    dupTags title tags = true ↔ ∃ tag ∈ tags, tag.title = title := by
  simp [dupTags]

theorem offers_iff {tags : List Tags} {choice : Option String} :
    offers tags choice = true ↔ ∀ title, choice = some title → dupTags title tags = true := by
  cases choice <;> simp [offers]

theorem dupTags_addTags {newTag : Tags} {tags : List Tags} {title : String}
    (h : dupTags title tags = true) : dupTags title (addTags newTag tags) = true := by
  rw [dupTags_iff] at h ⊢
  obtain ⟨tag, htag, rfl⟩ := h
  by_cases hsame : tag.title = newTag.title
  · exact ⟨newTag, List.mem_cons_self, hsame.symm⟩
  · exact ⟨tag, List.mem_cons_of_mem _ (List.mem_filter.mpr ⟨htag, by simpa using hsame⟩), rfl⟩

theorem dupTags_removeTag {tag : Tags} {tags : List Tags} {title : String} :
    dupTags title (removeTag tag tags) = true ↔ dupTags title tags = true ∧ title ≠ tag.title := by
  rw [dupTags_iff, dupTags_iff]
  constructor
  · rintro ⟨t, ht, rfl⟩
    obtain ⟨hmem, hne⟩ := List.mem_filter.mp ht
    exact ⟨⟨t, hmem, rfl⟩, by simpa using hne⟩
  · rintro ⟨⟨t, ht, rfl⟩, hne⟩
    exact ⟨t, List.mem_filter.mpr ⟨ht, by simpa using hne⟩, rfl⟩

end Tags

namespace TagList

/-! ## The screen -/

/-- The account's documents, and the list the tag screen has loaded. -/
structure Account (κ : Type) where
  world : World κ
  /-- the documents of the collection of tasks -/
  ids : List String
  tags : List Tags
  showCompleted : Bool
  eventTagList : List AppTask

variable {κ : Type}

/-- `getEventList`, in the order of the collection: the order it sorts them into
plays no part here. -/
def getEventList (uid : String) (showCompleted : Bool) (ids : List String) (w : World κ) :
    List AppTask :=
  ids.filterMap fun id => (w.tasks id).bind fun d =>
    if d.userId = some uid ∧ (showCompleted = true ∨ d.isCompleted = false)
      then some (.fromDS id d) else none

/-- The reload at the end of `_updateTask` and of `_getEvents`. -/
def reload (uid : String) (s : Account κ) : Account κ :=
  { s with
    eventTagList := (getEventList uid s.showCompleted s.ids s.world).filter (·.tag.isSome) }

@[simp] theorem reload_world (uid : String) (s : Account κ) :
    (reload uid s).world = s.world := rfl

@[simp] theorem reload_tags (uid : String) (s : Account κ) : (reload uid s).tags = s.tags := rfl

@[simp] theorem reload_ids (uid : String) (s : Account κ) : (reload uid s).ids = s.ids := rfl

/-- `getMatchyEvent`. -/
def getMatchyEvent (tag : Tags) (eventTagList : List AppTask) : List AppTask :=
  if tag.title = "All" then eventTagList
  else eventTagList.filter (·.tag = some tag.title)

/-- `removeTagTask`, which throws where the document is gone. -/
def removeTagTask (task : AppTask) (w : World κ) : Except Fault (World κ) :=
  match w.tasks task.id with
  | none => .error .notFound
  | some d =>
      .ok { w with tasks := Function.update w.tasks task.id (some { d with tag := none }) }

/-- `onAccept` of the bin. -/
def onAccept (uid : String) (tag : Tags) (s : Account κ) : Account κ :=
  let tagEvents := getMatchyEvent tag s.eventTagList
  let (w, fault) := perform removeTagTask tagEvents s.world
  let s' := { s with tags := Tags.removeTag tag s.tags, world := w }
  -- a call that throws leaves the list as it was
  if fault.isNone then reload uid s' else s'

/-! ## What the bin does -/

theorem mem_getEventList {uid : String} {b : Bool} {ids : List String} {w : World κ}
    {task : AppTask} :
    task ∈ getEventList uid b ids w ↔ ∃ id ∈ ids, ∃ d, w.tasks id = some d
      ∧ (d.userId = some uid ∧ (b = true ∨ d.isCompleted = false)) ∧ task = .fromDS id d := by
  unfold getEventList
  rw [List.mem_filterMap]
  constructor
  · rintro ⟨id, hid, h⟩
    obtain ⟨d, hd, h⟩ := Option.bind_eq_some_iff.mp h
    split at h
    · next hlisted =>
      cases h
      exact ⟨id, hid, d, hd, hlisted, rfl⟩
    · cases h
  · rintro ⟨id, hid, d, hd, hlisted, rfl⟩
    refine ⟨id, hid, ?_⟩
    rw [hd, Option.bind_some, if_pos hlisted]

/-- The tasks of a list lose their tags, and the other documents stay. -/
theorem perform_removeTagTask (tagEvents : List AppTask) {w : World κ}
    (h : ∀ task ∈ tagEvents, (w.tasks task.id).isSome) :
    ∃ w', perform removeTagTask tagEvents w = (w', none)
      ∧ ∀ id, w'.tasks id = (w.tasks id).map fun d =>
          if id ∈ tagEvents.map (·.id) then { d with tag := none } else d := by
  induction tagEvents generalizing w with
  | nil => exact ⟨w, rfl, fun id => by simp⟩
  | cons task rest ih =>
      obtain ⟨d, hd⟩ := Option.isSome_iff_exists.mp (h task List.mem_cons_self)
      have hfirst : removeTagTask task w = .ok { w with
          tasks := Function.update w.tasks task.id (some { d with tag := none }) } := by
        rw [removeTagTask, hd]
      -- the documents of the rest are still there
      have hrest : ∀ t ∈ rest, (({ w with
          tasks := Function.update w.tasks task.id (some { d with tag := none }) } : World κ).tasks
            t.id).isSome := by
        intro t ht
        by_cases hid : t.id = task.id
        · simp [hid]
        · simpa [hid] using h t (List.mem_cons_of_mem _ ht)
      obtain ⟨w', hp, hw'⟩ := ih hrest
      refine ⟨w', by rw [perform_cons_ok _ hfirst, hp], fun id => ?_⟩
      rw [hw' id]
      by_cases hid : id = task.id
      · subst hid
        simp [hd]
      · simp [hid]

/-- **What the bin does** where the tasks it goes through are stored: the tag goes,
these tasks lose theirs, and the list is loaded again. -/
theorem onAccept_of_stored (uid : String) {tag : Tags} {s : Account κ}
    (h : ∀ task ∈ getMatchyEvent tag s.eventTagList, (s.world.tasks task.id).isSome) :
    ∃ w', onAccept uid tag s
        = reload uid { s with tags := Tags.removeTag tag s.tags, world := w' }
      ∧ ∀ id, w'.tasks id = (s.world.tasks id).map fun d =>
          if id ∈ (getMatchyEvent tag s.eventTagList).map (·.id) then { d with tag := none }
          else d := by
  obtain ⟨w', hp, hw'⟩ := perform_removeTagTask _ h
  exact ⟨w', by simp only [onAccept, hp, Option.isNone_none, if_true], hw'⟩

/-- Whether the bin takes its tag off a document. -/
def Cleared (tag : Tags) (showCompleted : Bool) (d : TaskDoc) : Prop :=
  d.tag.isSome ∧ (tag.title = "All" ∨ d.tag = some tag.title)
    ∧ (showCompleted = true ∨ d.isCompleted = false)

instance (tag : Tags) (showCompleted : Bool) (d : TaskDoc) :
    Decidable (Cleared tag showCompleted d) := by
  unfold Cleared
  infer_instance

/-! ## What is known of a reached state -/

/-- Every document is the user's, is found by a query of the collection, and is
well formed, and the list on the screen is the one a query gives now. -/
structure Loaded (uid : String) (s : Account κ) : Prop where
  owned : ∀ id d, s.world.tasks id = some d → d.userId = some uid
  listed : ∀ id d, s.world.tasks id = some d → id ∈ s.ids
  wellFormed : s.world.WellFormed
  fresh : reload uid s = s

variable {uid : String} {s : Account κ}

theorem Loaded.mem_eventTagList (h : Loaded uid s) {task : AppTask} :
    task ∈ s.eventTagList ↔ ∃ id d, s.world.tasks id = some d
      ∧ (d.tag.isSome ∧ (s.showCompleted = true ∨ d.isCompleted = false))
      ∧ task = .fromDS id d := by
  have hfresh : (getEventList uid s.showCompleted s.ids s.world).filter (·.tag.isSome)
      = s.eventTagList := congrArg Account.eventTagList h.fresh
  rw [← hfresh, List.mem_filter, mem_getEventList]
  constructor
  · rintro ⟨⟨id, -, d, hd, ⟨-, hshown⟩, rfl⟩, htag⟩
    exact ⟨id, d, hd, ⟨htag, hshown⟩, rfl⟩
  · rintro ⟨id, d, hd, ⟨htag, hshown⟩, rfl⟩
    exact ⟨⟨id, h.listed id d hd, d, hd, ⟨h.owned id d hd, hshown⟩, rfl⟩, htag⟩

/-- The tasks the bin goes through are those it clears. -/
theorem Loaded.mem_getMatchyEvent (h : Loaded uid s) {tag : Tags} {task : AppTask} :
    task ∈ getMatchyEvent tag s.eventTagList ↔ ∃ id d, s.world.tasks id = some d
      ∧ Cleared tag s.showCompleted d ∧ task = .fromDS id d := by
  unfold getMatchyEvent Cleared
  by_cases hall : tag.title = "All"
  · rw [if_pos hall, h.mem_eventTagList]
    simp only [hall, true_or, true_and]
  · rw [if_neg hall, List.mem_filter, h.mem_eventTagList]
    simp only [hall, false_or]
    constructor
    · rintro ⟨⟨id, d, hd, ⟨hsome, hshown⟩, rfl⟩, htag⟩
      exact ⟨id, d, hd, ⟨hsome, of_decide_eq_true htag, hshown⟩, rfl⟩
    · rintro ⟨id, d, hd, ⟨hsome, htag, hshown⟩, rfl⟩
      exact ⟨⟨id, d, hd, ⟨hsome, hshown⟩, rfl⟩, decide_eq_true htag⟩

/-- On a loaded list the bin clears the tasks that are shown under its tag. -/
theorem Loaded.onAccept_spec (h : Loaded uid s) (tag : Tags) :
    ∃ w', onAccept uid tag s
        = reload uid { s with tags := Tags.removeTag tag s.tags, world := w' }
      ∧ ∀ id, w'.tasks id = (s.world.tasks id).map fun d =>
          if Cleared tag s.showCompleted d then { d with tag := none } else d := by
  have hstored : ∀ task ∈ getMatchyEvent tag s.eventTagList,
      (s.world.tasks task.id).isSome := by
    intro task htask
    obtain ⟨id, d, hd, -, rfl⟩ := h.mem_getMatchyEvent.mp htask
    simp [hd]
  obtain ⟨w', haccept, hw'⟩ := onAccept_of_stored uid hstored
  refine ⟨w', haccept, fun id => ?_⟩
  rw [hw' id]
  cases hd : s.world.tasks id with
  | none => rfl
  | some d =>
      have hmem : id ∈ (getMatchyEvent tag s.eventTagList).map (·.id)
          ↔ Cleared tag s.showCompleted d := by
        rw [List.mem_map]
        constructor
        · rintro ⟨task, htask, rfl⟩
          obtain ⟨id', d', hd', hcleared, rfl⟩ := h.mem_getMatchyEvent.mp htask
          rw [AppTask.fromDS_id, hd', Option.some.injEq] at hd
          exact hd ▸ hcleared
        · intro hcleared
          exact ⟨.fromDS id d, h.mem_getMatchyEvent.mpr ⟨id, d, hd, hcleared, rfl⟩, rfl⟩
      simp only [Option.map_some, hmem]

/-! ## Operations -/

variable [DecidableEq κ]

/-- What the user can do, each operation on a task as it is stored. -/
inductive Action
  | newTag (tag : Tags)
  | createTask (c : Clock) (uuid docId : String) (data : FormData)
  | task (docId : String) (c : Clock) (op : TaskOp)
  | updateShowCompl (newShow : Bool)
  | dropTag (tag : Tags)

/-- The tag an operation leaves its task with is chosen from the offered ones, or
is the one the task has. -/
def chooses (tags : List Tags) (d : TaskDoc) : TaskOp → Bool
  | .edit data => data.tag == d.tag || Tags.offers tags data.tag
  | _ => true

/-- One operation, and the reload it ends with. -/
def step (key : AppTask → κ) (z : Zone) (uid : String) (s : Account κ) :
    Action → Option (Account κ)
  | .newTag tag =>
      if Tags.isBlank tag.title || Tags.dupTags tag.title s.tags then none
      else some (reload uid { s with tags := Tags.addTags tag s.tags })
  | .createTask c uuid docId data =>
      -- the store makes up an id it has not used
      if (s.world.tasks docId).isNone && Tags.offers s.tags data.tag then
        let calls := AquaFocus.createTask z c docId (newTask z uid uuid data)
        some (reload uid { s with
          world := (perform (exec key z c) calls s.world.fresh).1
          ids := docId :: s.ids })
      else none
  | .task docId c op =>
      match s.world.tasks docId with
      | none => none
      | some d =>
          if op.offered d && chooses s.tags d op then
            some (reload uid { s with world := performOp key z docId (c, op) s.world })
          else none
  | .updateShowCompl newShow => some (reload uid { s with showCompleted := newShow })
  | .dropTag tag => if tag ∈ Tags.all :: s.tags then some (onAccept uid tag s) else none

/-- A new account, with either setting. -/
def start (showCompleted : Bool) : Account κ where
  world := .empty
  ids := []
  tags := []
  showCompleted := showCompleted
  eventTagList := []

variable {key : AppTask → κ} {z : Zone} {s' : Account κ} {a : Action}

/-- The tag an operation leaves a task with: the form's, or the one it had. -/
theorem doc_tag {c : Clock} {task : AppTask} {d d' : TaskDoc} {next : Option DateTime}
    {op : TaskOp} (h : op.doc z c task d next = some d') :
    d'.tag = d.tag ∨ ∃ data, op = .edit data ∧ d'.tag = data.tag := by
  cases op with
  | edit data => exact .inr ⟨data, rfl, Option.some.inj h ▸ rfl⟩
  | complete =>
      refine .inl (Option.some.inj h ▸ ?_)
      cases next <;> rfl
  | delete => exact absurd h (by simp [TaskOp.doc])
  | deleteFromDetails => exact .inl (Option.some.inj h ▸ rfl)

/-- An operation leaves a task to its owner. -/
theorem doc_userId {c : Clock} {task : AppTask} {d d' : TaskDoc} {next : Option DateTime}
    {op : TaskOp} (h : op.doc z c task d next = some d') : d'.userId = d.userId := by
  cases op with
  | edit data => exact Option.some.inj h ▸ rfl
  | complete =>
      rw [← Option.some.inj h]
      cases next <;> rfl
  | delete => exact absurd h (by simp [TaskOp.doc])
  | deleteFromDetails => exact Option.some.inj h ▸ rfl

/-- **What an operation does** to the documents: a tag is added, a task created
with an offered tag, a task's document rewritten, nothing at all, or a tag
deleted and taken off the tasks the bin clears. -/
theorem Loaded.step_cases (h : Loaded uid s) (hstep : step key z uid s a = some s') :
    ∃ t, s' = reload uid t
      ∧ ((∃ tag, a = .newTag tag ∧ t = { s with tags := Tags.addTags tag s.tags })
      ∨ (∃ c uuid docId data, a = .createTask c uuid docId data
          ∧ s.world.tasks docId = none ∧ Tags.offers s.tags data.tag = true
          ∧ t.tags = s.tags ∧ t.showCompleted = s.showCompleted ∧ t.ids = docId :: s.ids
          ∧ t.world.tasks
            = Function.update s.world.tasks docId (some (newTask z uid uuid data)))
      ∨ (∃ docId c op d next, a = .task docId c op ∧ s.world.tasks docId = some d
          ∧ chooses s.tags d op = true
          ∧ t.tags = s.tags ∧ t.showCompleted = s.showCompleted ∧ t.ids = s.ids
          ∧ t.world.tasks
            = Function.update s.world.tasks docId (op.doc z c (.fromDS docId d) d next))
      ∨ (∃ newShow, a = .updateShowCompl newShow ∧ t = { s with showCompleted := newShow })
      ∨ ∃ tag, a = .dropTag tag ∧ t.tags = Tags.removeTag tag s.tags
          ∧ t.showCompleted = s.showCompleted ∧ t.ids = s.ids
          ∧ ∀ id, t.world.tasks id = (s.world.tasks id).map fun d =>
              if Cleared tag s.showCompleted d then { d with tag := none } else d) := by
  cases a with
  | newTag tag =>
      simp only [step] at hstep
      split at hstep
      · cases hstep
      · cases hstep
        exact ⟨_, rfl, .inl ⟨tag, rfl, rfl⟩⟩
  | createTask c uuid docId data =>
      simp only [step, Bool.and_eq_true, Option.isNone_iff_eq_none] at hstep
      split at hstep
      · next hoffered =>
        rw [createTask_spec key docId (newTask_wellFormed z uid uuid data)] at hstep
        cases hstep
        exact ⟨_, rfl, .inr (.inl ⟨c, uuid, docId, data, rfl, hoffered.1, hoffered.2,
          rfl, rfl, rfl, rfl⟩)⟩
      · cases hstep
  | task docId c op =>
      simp only [step] at hstep
      cases hd : s.world.tasks docId with
      | none =>
          rw [hd] at hstep
          cases hstep
      | some d =>
          simp only [hd, Bool.and_eq_true] at hstep
          split at hstep
          · next hoffered =>
            obtain ⟨next, -, htasks, -⟩ :=
              performOp_spec key z (c, op) hd (h.wellFormed docId d hd)
            cases hstep
            exact ⟨_, rfl, .inr (.inr (.inl ⟨docId, c, op, d, next, rfl, hd, hoffered.2,
              rfl, rfl, rfl, htasks⟩))⟩
          · cases hstep
  | updateShowCompl newShow =>
      cases hstep
      exact ⟨_, rfl, .inr (.inr (.inr (.inl ⟨newShow, rfl, rfl⟩)))⟩
  | dropTag tag =>
      simp only [step] at hstep
      split at hstep
      · obtain ⟨w', haccept, hw'⟩ := h.onAccept_spec tag
        rw [haccept] at hstep
        cases hstep
        exact ⟨_, rfl, .inr (.inr (.inr (.inr ⟨tag, rfl, rfl, rfl, rfl, hw'⟩)))⟩
      · cases hstep

/-- Where a stored document comes from: it was there, it is a new task's, an
operation wrote it, or the bin took its tag off. -/
theorem Loaded.doc_cases (h : Loaded uid s) (hstep : step key z uid s a = some s') {id : String}
    {d' : TaskDoc} (hd' : s'.world.tasks id = some d') :
    s.world.tasks id = some d'
      ∨ (∃ uuid data, d' = newTask z uid uuid data ∧ id ∈ s'.ids)
      ∨ (∃ c d next, ∃ op : TaskOp, s.world.tasks id = some d
          ∧ op.doc z c (.fromDS id d) d next = some d')
      ∨ ∃ d, s.world.tasks id = some d ∧ d' = { d with tag := none } := by
  obtain ⟨t, rfl, hcases⟩ := h.step_cases hstep
  rw [reload_world] at hd'
  rcases hcases with ⟨tag, -, rfl⟩ | ⟨c, uuid, docId, data, -, -, -, -, -, hids, htasks⟩
    | ⟨docId, c, op, d, next, -, hd, -, -, -, -, htasks⟩ | ⟨newShow, -, rfl⟩
    | ⟨tag, -, -, -, -, htasks⟩
  · exact .inl hd'
  · rw [htasks] at hd'
    by_cases hid : id = docId
    · rw [hid, Function.update_self, Option.some.injEq] at hd'
      refine .inr (.inl ⟨uuid, data, hd'.symm, ?_⟩)
      rw [reload_ids, hids, hid]
      exact List.mem_cons_self
    · rw [Function.update_of_ne hid] at hd'
      exact .inl hd'
  · rw [htasks] at hd'
    by_cases hid : id = docId
    · subst hid
      rw [Function.update_self] at hd'
      exact .inr (.inr (.inl ⟨c, d, next, op, hd, hd'⟩))
    · rw [Function.update_of_ne hid] at hd'
      exact .inl hd'
  · exact .inl hd'
  · rw [htasks] at hd'
    obtain ⟨d, hd, hcleared⟩ := Option.map_eq_some_iff.mp hd'
    by_cases hclears : Cleared tag s.showCompleted d
    · rw [if_pos hclears] at hcleared
      exact .inr (.inr (.inr ⟨d, hd, hcleared.symm⟩))
    · rw [if_neg hclears] at hcleared
      exact .inl (hcleared ▸ hd)

/-- No id leaves the collection. -/
theorem Loaded.ids_subset (h : Loaded uid s) (hstep : step key z uid s a = some s') :
    s.ids ⊆ s'.ids := by
  obtain ⟨t, rfl, hcases⟩ := h.step_cases hstep
  rw [reload_ids]
  rcases hcases with ⟨tag, -, rfl⟩ | ⟨c, uuid, docId, data, -, -, -, -, -, hids, -⟩
    | ⟨docId, c, op, d, next, -, -, -, -, -, hids, -⟩ | ⟨newShow, -, rfl⟩
    | ⟨tag, -, -, -, hids, -⟩
  · exact List.Subset.refl s.ids
  · rw [hids]
    exact List.subset_cons_self docId s.ids
  · rw [hids]
    exact List.Subset.refl s.ids
  · exact List.Subset.refl s.ids
  · rw [hids]
    exact List.Subset.refl s.ids

theorem Loaded.step (h : Loaded uid s) (hstep : step key z uid s a = some s') :
    Loaded uid s' := by
  have hfresh : reload uid s' = s' := by
    obtain ⟨t, rfl, -⟩ := h.step_cases hstep
    rfl
  refine ⟨fun id d' hd' => ?_, fun id d' hd' => ?_, fun id d' hd' => ?_, hfresh⟩
  · rcases h.doc_cases hstep hd' with hold | ⟨uuid, data, rfl, -⟩ | ⟨c, d, next, op, hd, hdoc⟩
      | ⟨d, hd, rfl⟩
    · exact h.owned id d' hold
    · rfl
    · exact (doc_userId hdoc).trans (h.owned id d hd)
    · exact h.owned id d hd
  · rcases h.doc_cases hstep hd' with hold | ⟨uuid, data, -, hid⟩ | ⟨c, d, next, op, hd, -⟩
      | ⟨d, hd, -⟩
    · exact h.ids_subset hstep (h.listed id d' hold)
    · exact hid
    · exact h.ids_subset hstep (h.listed id d hd)
    · exact h.ids_subset hstep (h.listed id d hd)
  · rcases h.doc_cases hstep hd' with hold | ⟨uuid, data, rfl, -⟩ | ⟨c, d, next, op, hd, hdoc⟩
      | ⟨d, hd, rfl⟩
    · exact h.wellFormed id d' hold
    · exact newTask_wellFormed z uid uuid data
    · have hwf := h.wellFormed id d hd
      exact TaskOp.doc_wellFormed z c (hwf.read id) hwf hdoc
    · have hwf := h.wellFormed id d hd
      exact ⟨hwf.time_isSome, hwf.reminder_never, hwf.streak_nonneg⟩

omit [DecidableEq κ] in
theorem loaded_start (uid : String) (b : Bool) : Loaded uid (start b : Account κ) := by
  refine ⟨fun id d hd => ?_, fun id d hd => ?_, fun id d hd => ?_, rfl⟩ <;> cases hd

/-! ## Tags that exist -/

/-- Every task names a tag that exists, or none. -/
def TagsExist (s : Account κ) : Prop :=
  ∀ id d, s.world.tasks id = some d → ∀ title, d.tag = some title →
    ∃ tag ∈ s.tags, tag.title = title

/-- A tag is dropped on the bin while completed tasks are shown, or while no
completed task names it. -/
def NothingHidden (s : Account κ) (a : Action) : Prop :=
  ∀ tag, a = .dropTag tag → s.showCompleted = true
    ∨ ∀ id d, s.world.tasks id = some d → d.tag = some tag.title → d.isCompleted = false

omit [DecidableEq κ] in
theorem tagsExist_iff_offers {s : Account κ} :
    TagsExist s ↔ ∀ id d, s.world.tasks id = some d → Tags.offers s.tags d.tag = true := by
  unfold TagsExist
  simp only [Tags.offers_iff, Tags.dupTags_iff]

omit [DecidableEq κ] in
/-- The bin leaves no task behind exactly when none was hidden from it. -/
theorem tagsExist_drop_iff (hs : TagsExist s) {tag : Tags} {t : Account κ}
    (htags : t.tags = Tags.removeTag tag s.tags)
    (htasks : ∀ id, t.world.tasks id = (s.world.tasks id).map fun d =>
      if Cleared tag s.showCompleted d then { d with tag := none } else d) :
    TagsExist t ↔ NothingHidden s (.dropTag tag) := by
  rw [tagsExist_iff_offers] at hs ⊢
  constructor
  · intro h dropped hdropped
    cases hdropped
    by_cases hshow : s.showCompleted = true
    · exact .inl hshow
    · refine .inr fun id d hd htag => ?_
      by_contra hcompleted
      -- a completed task that is hidden keeps its tag, which is gone
      have hkept : ¬ Cleared tag s.showCompleted d := fun hc => hc.2.2.elim hshow hcompleted
      have hd' : t.world.tasks id = some d := by
        rw [htasks, hd, Option.map_some, if_neg hkept]
      have hoffered := Tags.offers_iff.mp (h id d hd') tag.title htag
      rw [htags, Tags.dupTags_removeTag] at hoffered
      exact hoffered.2 rfl
  · intro h id d' hd'
    rw [htasks] at hd'
    obtain ⟨d, hd, rfl⟩ := Option.map_eq_some_iff.mp hd'
    by_cases hcleared : Cleared tag s.showCompleted d
    · rw [if_pos hcleared]
      rfl
    · rw [if_neg hcleared, Tags.offers_iff, htags]
      intro title htitle
      refine Tags.dupTags_removeTag.mpr ⟨Tags.offers_iff.mp (hs id d hd) title htitle, ?_⟩
      rintro rfl
      -- a task that names the tag and is not cleared would have been hidden
      apply hcleared
      refine ⟨by rw [htitle]; rfl, .inr htitle, ?_⟩
      exact (h tag rfl).imp_right fun hopen => hopen id d hd htitle

theorem tagsExist_step_iff (h : Loaded uid s) (hs : TagsExist s)
    (hstep : step key z uid s a = some s') : TagsExist s' ↔ NothingHidden s a := by
  have hoffers := tagsExist_iff_offers.mp hs
  obtain ⟨t, rfl, hcases⟩ := h.step_cases hstep
  rcases hcases with ⟨tag, rfl, rfl⟩
    | ⟨c, uuid, docId, data, rfl, -, hdata, htags, -, -, htasks⟩
    | ⟨docId, c, op, d, next, rfl, hd, hchosen, htags, -, -, htasks⟩ | ⟨newShow, rfl, rfl⟩
    | ⟨tag, rfl, htags, -, -, htasks⟩
  · refine iff_of_true ?_ (by simp [NothingHidden])
    apply tagsExist_iff_offers.mpr
    intro id d hd
    rw [Tags.offers_iff]
    exact fun title htitle =>
      Tags.dupTags_addTags (Tags.offers_iff.mp (hoffers id d hd) title htitle)
  · refine iff_of_true ?_ (by simp [NothingHidden])
    apply tagsExist_iff_offers.mpr
    intro id d hd
    rw [reload_world, htasks] at hd
    rw [reload_tags, htags]
    by_cases hid : id = docId
    · rw [hid, Function.update_self, Option.some.injEq] at hd
      exact hd ▸ hdata
    · rw [Function.update_of_ne hid] at hd
      exact hoffers id d hd
  · refine iff_of_true ?_ (by simp [NothingHidden])
    apply tagsExist_iff_offers.mpr
    intro id d' hd'
    rw [reload_world, htasks] at hd'
    rw [reload_tags, htags]
    by_cases hid : id = docId
    · rw [hid, Function.update_self] at hd'
      rcases doc_tag hd' with hkept | ⟨data, rfl, hform⟩
      · rw [hkept]
        exact hoffers docId d hd
      · -- the form's tag is the task's own, or one it was offered
        rw [hform]
        simp only [chooses, Bool.or_eq_true, beq_iff_eq] at hchosen
        rcases hchosen with hown | hoffered
        · rw [hown]
          exact hoffers docId d hd
        · exact hoffered
    · rw [Function.update_of_ne hid] at hd'
      exact hoffers id d' hd'
  · exact iff_of_true hs (by simp [NothingHidden])
  · exact tagsExist_drop_iff hs htags htasks

/-- **Every task's tag exists**, in every state of a run, exactly when no tag is
dropped on the bin while a completed task that names it is hidden. -/
theorem tagsExist_iff (key : AppTask → κ) (z : Zone) (uid : String) (b : Bool)
    (as : List Action) :
    Always (step key z uid) TagsExist (start b) as
      ↔ Meets (step key z uid) NothingHidden (start b) as := by
  have hinv : ∀ s a s', Loaded uid s → TagsExist s → step key z uid s a = some s' →
      NothingHidden s a → Loaded uid s' := fun _ _ _ h _ hstep _ => h.step hstep
  have hiff : ∀ s a s', Loaded uid s → TagsExist s → step key z uid s a = some s' →
      (TagsExist s' ↔ NothingHidden s a) := fun _ _ _ h hs hstep => tagsExist_step_iff h hs hstep
  have hstart : TagsExist (start b : Account κ) := fun id d hd => by cases hd
  exact always_iff_meets hinv hiff (loaded_start uid b) hstart as

/-- A tag, a task that carries it, completed; then the tag is deleted, the
completed task being hidden. -/
def completedThenDropped : List Action :=
  [.newTag ⟨"sport", "red"⟩,
    .createTask (noonOfJune 1) "uuid" "doc"
      { FormData.untimed 1654041600000 .never with tag := some "sport" },
    .task "doc" (noonOfJune 1) .complete,
    .dropTag ⟨"sport", "red"⟩]

/-- The completed task still names the deleted tag. -/
theorem not_always_tagsExist :
    ¬ Always (step AppTask.id utc "uid") TagsExist (start false) completedThenDropped := by
  intro h
  have hrun : ∃ s, run (step AppTask.id utc "uid") (start false) completedThenDropped = some s
      ∧ s.tags = [] ∧ ∃ d, s.world.tasks "doc" = some d ∧ d.tag = some "sport" :=
    ⟨_, rfl, rfl, _, rfl, rfl⟩
  obtain ⟨s, hs, htags, d, hd, htag⟩ := hrun
  obtain ⟨tag, hmem, -⟩ := h _ (List.prefix_refl _) s hs "doc" d hd "sport" htag
  rw [htags] at hmem
  exact absurd hmem List.not_mem_nil

end TagList

end AquaFocus
