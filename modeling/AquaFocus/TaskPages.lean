/-
The pages of the checklist: `list_body.dart`, and `today_list.dart`,
`all_list.dart` and `tag_list.dart` opened from it.

Each page shows a list it has read, and what the user does on a page changes the
store. The pages read it again by different ways: the list of the day and that
of all tasks when a form is saved, the list of a tag whenever a form is left, and
after a deletion only that, the others taking the task off the list at hand while
the page behind is loaded. `App.Inv` says that all of them show what is stored.

An operation is run to its end, with the loads it starts. The clock variables are
those the process has read, and a load reads the time of its own.
-/
import AquaFocus.DayLookup
import AquaFocus.ListViews
import AquaFocus.TagFrame
import AquaFocus.TaskOrder
import AquaFocus.Lib.Listing

set_option autoImplicit false

open Dart Calls Listing Runs

namespace AquaFocus.TaskPages

/-! ## The pages -/

/-- What stays as it is while the checklist is open: the account, the setting the
pages are opened with, the clock variables, and the two orders that are not the
app's own, that of `List.sort` and that of the documents of `Tags`. -/
structure Session (κ : Type) where
  key : AppTask → κ
  zone : Zone
  clock : Clock
  uid : String
  showCompleted : Bool
  sort : List AppTask → List AppTask
  /-- sorting keeps the tasks, and leaves no task before one it should follow -/
  sort_perm : ∀ l, (sort l).Perm l
  sort_isChain : ∀ l, (sort l).IsChain fun a b => TaskOrder.taskCompare zone a b ≤ 0
  order : List Tags → List Tags
  order_perm : ∀ l, (order l).Perm l

/-- The account's documents. `ids` has every id a document was stored under. -/
structure Store (κ : Type) where
  world : World κ
  ids : List String
  tags : List Tags

/-- `_ListBodyPageState`, once it is loaded. -/
structure ListBody where
  eventList : List AppTask
  eventTagList : List AppTask
  tagList : List Tags

/-- `_ListTagState`. -/
structure ListTag where
  selectedIndex : ℕ
  selectedEvents : List AppTask
  eventTagList : List AppTask
  tags : List Tags

/-- The page above the list body. -/
inductive Page
  | today (selectedEvents : List AppTask)
  | all (eventList : List AppTask)
  | tag (page : ListTag)

/-- The tasks on the page. -/
def Page.events : Page → List AppTask
  | .today selectedEvents => selectedEvents
  | .all eventList => eventList
  | .tag page => page.selectedEvents

def Page.modify (f : List AppTask → List AppTask) : Page → Page
  | .today selectedEvents => .today (f selectedEvents)
  | .all eventList => .all (f eventList)
  | .tag page => .tag { page with selectedEvents := f page.selectedEvents }

structure App (κ : Type) where
  store : Store κ
  main : ListBody
  page : Option Page

def App.withWorld {κ : Type} (w : World κ) (s : App κ) : App κ :=
  { s with store := { s.store with world := w } }

variable {κ : Type} (σ : Session κ)

/-! ## Loads -/

/-- `getEventList`. -/
def getEventList (st : Store κ) : List AppTask :=
  σ.sort (TagList.getEventList σ.uid σ.showCompleted st.ids st.world)

/-- The tasks of a list that have a tag. -/
def tagged (eventList : List AppTask) : List AppTask := eventList.filter (·.tag.isSome)

/-- `getUserTags`, with the entry the screens put before it. -/
def getTags (tags : List Tags) : List Tags := Tags.all :: σ.order tags

/-- `_getEvents` of the list body, which the other pages call `getMainPageEvents`. -/
def getMainPageEvents (s : App κ) : App κ :=
  { s with main := {
      eventList := getEventList σ s.store
      eventTagList := tagged (getEventList σ s.store)
      tagList := getTags σ s.store.tags } }

/-- `updateTaskDetails` of the list of the day. -/
def ListToday.updateTaskDetails (now : DateTime) (s : App κ) : App κ :=
  getMainPageEvents σ { s with
    page := some (.today (getEventsForDay σ.zone (some now) (getEventList σ s.store))) }

/-- `updateTaskDetails` of the list of all tasks. -/
def ListAll.updateTaskDetails (s : App κ) : App κ :=
  getMainPageEvents σ { s with page := some (.all (getEventList σ s.store)) }

/-- `_updateTask` of the list of a tag. -/
def ListTag.updateTask (currTag : Tags) (page : ListTag) (s : App κ) : App κ :=
  getMainPageEvents σ { s with
    page := some (.tag { page with
      selectedEvents := TagList.getMatchyEvent currTag (tagged (getEventList σ s.store))
      eventTagList := tagged (getEventList σ s.store)
      tags := getTags σ s.store.tags }) }

/-- `_updateTask(widget.tags[index])`, where a place without a tag throws. -/
def ListTag.updateTaskAt (index : ℕ) (page : ListTag) (s : App κ) : App κ :=
  match page.tags[index]? with
  | none => s
  | some currTag => ListTag.updateTask σ currTag page s

/-- After a completion, and on the way back from the details of a task. -/
def reload (now : DateTime) (s : App κ) : App κ :=
  match s.page with
  | none => s
  | some (.today _) => ListToday.updateTaskDetails σ now s
  | some (.all _) => ListAll.updateTaskDetails σ s
  | some (.tag page) => ListTag.updateTaskAt σ page.selectedIndex page s

/-- After the form of a new task: `updateTaskDetails` is called by Save, and the
list of a tag is read however the form is left. -/
def afterAdd (now : DateTime) (saved : Bool) (s : App κ) : App κ :=
  match s.page with
  | none => if saved then getMainPageEvents σ s else s
  | some (.tag page) => ListTag.updateTaskAt σ page.selectedIndex page s
  | some _ => if saved then reload σ now s else s

/-- After the form of a task of the list. The list of a tag goes back to all tags,
and keeps the chip it highlights. -/
def afterEdit (now : DateTime) (saved : Bool) (s : App κ) : App κ :=
  match s.page with
  | some (.tag page) => ListTag.updateTaskAt σ 0 page s
  | _ => if saved then reload σ now s else s

/-- After a deletion. -/
def afterDelete (s : App κ) : App κ :=
  match s.page with
  | some (.tag page) => ListTag.updateTaskAt σ page.selectedIndex page s
  | _ => getMainPageEvents σ s

/-! ## Forms -/

/-- What is done on a form: tags that are made, and the data it is saved with. -/
structure Visit where
  newTags : List Tags
  save : Option FormData

/-- The tags after some are made, each let through by the dialog's validator. -/
def addTags (newTags tags : List Tags) : Option (List Tags) :=
  newTags.foldlM (fun tags tag =>
    match TagFrame.validator tags (some tag.title) with
    | some _ => none
    | none => some (Tags.addTags tag tags)) tags

section Operations

variable [DecidableEq κ]

/-- A visit of the form of a task with the tag `own`, and whether Save came to its
end. -/
def fillForm (calls : FormData → List Call) (own : Option String) (visit : Visit)
    (st : Store κ) : Option (Store κ × Bool) :=
  (addTags visit.newTags st.tags).bind fun tags =>
    match visit.save with
    | none => some ({ st with tags := tags }, false)
    | some data =>
        if data.tag == own || Tags.offers tags data.tag then
          let (w, fault) := perform (exec σ.key σ.zone σ.clock) (calls data) st.world.fresh
          some ({ st with tags := tags, world := w }, fault.isNone)
        else none

/-- An edit on the details page, which then shows the task that was stored. -/
def editDetails (shown : AppTask × Store κ) (visit : Visit) : Option (AppTask × Store κ) :=
  let (task, st) := shown
  (fillForm σ (editTask σ.zone σ.clock task) task.tag visit st).map fun (st', saved) =>
    if saved then (((st'.world.tasks task.id).map (.fromDS task.id)).getD task, st')
    else (task, st')

/-! ## Operations -/

/-- A handler, and what comes after it where no call throws. -/
def handle (calls : List Call) (andThen : App κ → App κ) (s : App κ) : App κ :=
  match perform (exec σ.key σ.zone σ.clock) calls s.store.world.fresh with
  | (w, none) => andThen (s.withWorld w)
  | (w, some _) => s.withWorld w

/-- `onAccept` of the bin. -/
def ListTag.onAccept (tag : Tags) (page : ListTag) (s : App κ) : App κ :=
  let tagEvents := TagList.getMatchyEvent tag page.eventTagList
  let page := { page with selectedIndex := 0 }
  let (w, fault) := perform TagList.removeTagTask tagEvents s.store.world
  let s := { s with
    store := { s.store with tags := Tags.removeTag tag s.store.tags, world := w }
    page := some (.tag page) }
  if fault.isNone then ListTag.updateTaskAt σ 0 page s else s

inductive Event
  | openToday
  | openAll
  | openTag
  | back
  /-- the + button, with the ids that are made up for the task -/
  | add (docId uuid : String) (visit : Visit) (now : DateTime)
  | edit (docId : String) (visit : Visit) (now : DateTime)
  /-- the details of a task: the edits on them, and the answer of the delete dialog -/
  | details (docId : String) (visits : List Visit) (confirm : Bool) (now : DateTime)
  | complete (docId : String) (now : DateTime)
  | delete (docId : String)
  | chip (index : ℕ)
  | drop (tag : Tags)

/-- A page is opened from the list body. -/
def push (page : Page) (s : App κ) : Option (App κ) :=
  if s.page.isNone then some { s with page := some page } else none

/-- The task of this id, as the page has it. -/
def App.find (docId : String) (s : App κ) : Option AppTask :=
  s.page.bind fun page => page.events.find? (·.id = docId)

/-- What a tap leaves of the list while the completion is under way. -/
def marked (event : AppTask) (events : List AppTask) : List AppTask :=
  let events := events.set (events.findIdx (·.id = event.id)) (ListViews.complete event)
  if !σ.showCompleted && decide (event.repeats = .never) then
    ListViews.remove events (ListViews.complete event)
  else events

def step (s : App κ) : Event → Option (App κ)
  | .openToday =>
      push (.today (getEventsForDay σ.zone (some σ.clock.now) s.main.eventList)) s
  | .openAll => push (.all s.main.eventList) s
  | .openTag => push (.tag ⟨0, s.main.eventTagList, s.main.eventTagList, s.main.tagList⟩) s
  | .back => s.page.map fun _ => { s with page := none }
  | .add docId uuid visit now =>
      -- the store makes up an id it has not used
      if docId ∈ s.store.ids then none
      else
        let calls := fun data =>
          createTask σ.zone σ.clock docId (newTask σ.zone σ.uid uuid data)
        let st := { s.store with ids := docId :: s.store.ids }
        (fillForm σ calls none visit st).map fun (st, saved) =>
          afterAdd σ now saved { s with store := st }
  | .edit docId visit now =>
      (s.find docId).bind fun event =>
        (fillForm σ (editTask σ.zone σ.clock event) event.tag visit s.store).map
          fun (st, saved) => afterEdit σ now saved { s with store := st }
  | .details docId visits confirm now =>
      (s.find docId).bind fun event =>
        (visits.foldlM (editDetails σ) (event, s.store)).map fun (task, st) =>
          let calls := if confirm then deleteFromDetails σ.zone σ.clock task else []
          -- the page is left at last, also where the deletion throws
          let (w, _) := perform (exec σ.key σ.zone σ.clock) calls st.world.fresh
          reload σ now { s with store := { st with world := w } }
  | .complete docId now =>
      (s.find docId).map fun event =>
        if event.isCompleted then s
        else handle σ (completion σ.zone σ.clock event) (reload σ now)
          { s with page := s.page.map (·.modify (marked σ event)) }
  | .delete docId =>
      (s.find docId).map fun event =>
        handle σ (deleteTask σ.zone σ.clock event) (afterDelete σ)
          { s with page := s.page.map (·.modify (ListViews.remove · event)) }
  | .chip index =>
      match s.page with
      | some (.tag page) =>
          page.tags[index]?.map fun tag => { s with page := some (.tag { page with
            selectedIndex := index
            selectedEvents := TagList.getMatchyEvent tag page.eventTagList }) }
      | _ => none
  | .drop tag =>
      match s.page with
      | some (.tag page) => if tag ∈ page.tags then some (ListTag.onAccept σ tag page s) else none
      | _ => none

/-- The checklist, as it is opened. -/
def opened (st : Store κ) : App κ :=
  getMainPageEvents σ { store := st, main := ⟨[], [], []⟩, page := none }

end Operations

/-! ## What a page shows -/

/-- Whether the pages show a task at all. -/
def Shown (d : TaskDoc) : Prop := σ.showCompleted = true ∨ d.isCompleted = false

/-- The tasks under a chip. -/
def Matches (tag : Tags) (d : TaskDoc) : Prop := tag.title = "All" ∨ d.tag = some tag.title

def OnDay (n : ℤ) (d : TaskDoc) : Prop := (DateTime.ofMillis d.date).epochDay σ.zone = n

/-- What is known of the stored documents: they are the user's and well formed,
and a query finds each of them once. -/
structure Store.Sound (st : Store κ) : Prop where
  owned : ∀ id d, st.world.tasks id = some d → d.userId = some σ.uid
  listed : ∀ id d, st.world.tasks id = some d → id ∈ st.ids
  nodup : st.ids.Nodup
  wellFormed : st.world.WellFormed

/-- A list of the stored tasks that meet `P`, in the order of `taskCompare`. -/
abbrev Store.Lists (st : Store κ) (P : TaskDoc → Prop) (l : List AppTask) : Prop :=
  Listing.Lists AppTask.fromDS (TaskOrder.rank σ.zone) st.world.tasks P l

/-- Chips of tags that are stored, behind the one for all tags; a tag that was made
since may be missing. -/
structure Chips (stored tags : List Tags) : Prop where
  all : tags[0]? = some Tags.all
  mem : ∀ tag ∈ tags, tag = Tags.all ∨ tag ∈ stored
  length : tags.length ≤ stored.length + 1

/-- The list body shows the tasks. -/
structure ListBody.Shows (st : Store κ) (main : ListBody) : Prop where
  eventList : st.Lists σ (Shown σ) main.eventList
  eventTagList : st.Lists σ (fun d => Shown σ d ∧ d.tag.isSome = true) main.eventTagList
  chips : Chips st.tags main.tagList

/-- The list of a tag shows the tasks of one of its chips, and highlights a chip. -/
structure ListTag.Shows (st : Store κ) (page : ListTag) : Prop where
  eventTagList : st.Lists σ (fun d => Shown σ d ∧ d.tag.isSome = true) page.eventTagList
  selectedEvents : ∃ tag ∈ page.tags, st.Lists σ
    (fun d => (Shown σ d ∧ d.tag.isSome = true) ∧ Matches tag d) page.selectedEvents
  chips : Chips st.tags page.tags
  highlighted : page.selectedIndex < page.tags.length

/-- What a page shows, the list of the day being that of one of `days`. -/
def Page.Shows (days : Set ℤ) (st : Store κ) : Page → Prop
  | .today selectedEvents =>
      ∃ n ∈ days, st.Lists σ (fun d => Shown σ d ∧ OnDay σ n d) selectedEvents
  | .all eventList => st.Lists σ (Shown σ) eventList
  | .tag page => page.Shows σ st

structure App.Inv (days : Set ℤ) (s : App κ) : Prop where
  store : s.store.Sound σ
  main : s.main.Shows σ s.store
  page : ∀ page, s.page = some page → page.Shows σ days s.store

/-! ## What is read -/

variable {σ} {st st' : Store κ} {s : App κ} {days : Set ℤ} {P : TaskDoc → Prop} {l : List AppTask}

theorem lists_getEventList (h : st.Sound σ) : st.Lists σ (Shown σ) (getEventList σ st) := by
  refine lists_query h.nodup h.listed (fun i d j e heq => congrArg AppTask.id heq)
    (fun id d a hd => ?_) (σ.sort_perm _) ?_
  · rw [Option.ite_none_right_eq_some, and_iff_right (h.owned id d hd), Option.some.injEq]
    rfl
  · exact (TaskOrder.taskCompare_ordersBy_rank σ.zone).pairwise (σ.sort_isChain _)

theorem lists_tagged (h : st.Sound σ) :
    st.Lists σ (fun d => Shown σ d ∧ d.tag.isSome = true) (tagged (getEventList σ st)) :=
  (lists_getEventList h).filter fun _ _ _ _ => Iff.rfl

theorem lists_getMatchyEvent (h : st.Lists σ P l) (tag : Tags) :
    st.Lists σ (fun d => P d ∧ Matches tag d) (TagList.getMatchyEvent tag l) := by
  unfold TagList.getMatchyEvent Matches
  by_cases hall : tag.title = "All"
  · rw [if_pos hall]
    exact h.congr fun _ _ _ => by simp only [hall, true_or, and_true]
  · rw [if_neg hall]
    simp only [hall, false_or]
    exact h.filter fun _ _ _ _ => decide_eq_true_iff

theorem lists_getEventsForDay (h : st.Lists σ P l) (day : DateTime) :
    st.Lists σ (fun d => P d ∧ OnDay σ (day.epochDay σ.zone) d)
      (getEventsForDay σ.zone (some day) l) := by
  rw [getEventsForDay_eq_onDay]
  exact h.filter fun _ _ _ _ => decide_eq_true_iff

theorem length_getTags (tags : List Tags) : (getTags σ tags).length = tags.length + 1 := by
  rw [getTags, List.length_cons, (σ.order_perm tags).length_eq]

theorem mem_getTags {tag : Tags} (tags : List Tags) :
    tag ∈ getTags σ tags ↔ tag = Tags.all ∨ tag ∈ tags := by
  rw [getTags, List.mem_cons, (σ.order_perm tags).mem_iff]

theorem chips_getTags (tags : List Tags) : Chips tags (getTags σ tags) where
  all := rfl
  mem _ := (mem_getTags tags).mp
  length := (length_getTags tags).le

/-- The list body, once it is loaded. -/
theorem inv_getMainPageEvents (hs : s.store.Sound σ)
    (hpage : ∀ page, s.page = some page → page.Shows σ days s.store) :
    (getMainPageEvents σ s).Inv σ days :=
  ⟨hs, ⟨lists_getEventList hs, lists_tagged hs, chips_getTags _⟩, hpage⟩

theorem inv_today (hs : s.store.Sound σ) {now : DateTime} (hnow : now.epochDay σ.zone ∈ days) :
    (ListToday.updateTaskDetails σ now s).Inv σ days := by
  refine inv_getMainPageEvents hs fun page hpage => ?_
  rw [← Option.some.inj hpage]
  exact ⟨_, hnow, lists_getEventsForDay (lists_getEventList hs) now⟩

theorem inv_all (hs : s.store.Sound σ) : (ListAll.updateTaskDetails σ s).Inv σ days := by
  refine inv_getMainPageEvents hs fun page hpage => ?_
  rw [← Option.some.inj hpage]
  exact lists_getEventList hs

/-- The chips of the list of a tag are those of tags that are stored, and the one
it highlights is there. -/
structure ListTag.Ready (stored : List Tags) (page : ListTag) : Prop where
  chips : Chips stored page.tags
  highlighted : page.selectedIndex < page.tags.length

theorem ListTag.Ready.pos {stored : List Tags} {page : ListTag} (h : page.Ready stored) :
    0 < page.tags.length := Nat.zero_lt_of_lt h.highlighted

theorem ListTag.Ready.le {stored : List Tags} {page : ListTag} (h : page.Ready stored) :
    page.selectedIndex ≤ stored.length :=
  Nat.le_of_lt_succ (h.highlighted.trans_le h.chips.length)

/-- The list of a tag, read under one of its chips that is still a chip then. -/
theorem inv_updateTaskAt (hs : s.store.Sound σ) {index : ℕ} {page : ListTag} {tag : Tags}
    (htag : page.tags[index]? = some tag) (hchip : tag = Tags.all ∨ tag ∈ s.store.tags)
    (hhigh : page.selectedIndex ≤ s.store.tags.length) :
    (ListTag.updateTaskAt σ index page s).Inv σ days := by
  unfold ListTag.updateTaskAt
  rw [htag]
  refine inv_getMainPageEvents hs fun page' hpage => ?_
  rw [← Option.some.inj hpage]
  refine ⟨lists_tagged hs, ⟨tag, (mem_getTags _).mpr hchip, ?_⟩, chips_getTags _, ?_⟩
  · exact lists_getMatchyEvent (lists_tagged hs) tag
  · rw [length_getTags]
    exact Nat.lt_succ_of_le hhigh

/-- While tags are only made, a page may be read under any of its chips. -/
theorem ListTag.Ready.inv {page : ListTag} (h : page.Ready s.store.tags) (hs : s.store.Sound σ)
    {index : ℕ} (hindex : index < page.tags.length) :
    (ListTag.updateTaskAt σ index page s).Inv σ days :=
  inv_updateTaskAt hs (List.getElem?_eq_getElem hindex)
    (h.chips.mem _ (List.getElem_mem hindex)) h.le

end AquaFocus.TaskPages
