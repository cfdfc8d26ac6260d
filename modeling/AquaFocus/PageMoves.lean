/-
What an operation on the pages of the checklist does to the store, and to the
pages.

Handlers on stored tasks come to their end (`op_spec`), so every operation ends
with the load it asks for. The loads make the pages right again whatever was
written; what is left to show is for the pages that are not loaded, after a form
that is not saved and after a deletion. `App.Inv.moves` is the list of what one
operation can do.
-/
import AquaFocus.TaskPages

set_option autoImplicit false

open Dart Calls Listing Runs

namespace AquaFocus.TaskPages

variable {κ : Type} {σ : Session κ} {st st' : Store κ} {s : App κ} {days : Set ℤ}
  {P : TaskDoc → Prop} {l : List AppTask}

/-! ## Changes of the store -/

/-- More tags are stored than before. -/
structure Grows (tags tags' : List Tags) : Prop where
  subset : tags ⊆ tags'
  length : tags.length ≤ tags'.length

theorem Chips.grow {stored stored' tags : List Tags} (h : Chips stored tags)
    (hgrows : Grows stored stored') : Chips stored' tags where
  all := h.all
  mem tag htag := (h.mem tag htag).imp_right fun hmem => hgrows.subset hmem
  length := h.length.trans (Nat.succ_le_succ hgrows.length)

/-- A page still shows what is stored when only tags were made. -/
theorem ListBody.Shows.grow {main : ListBody} (h : main.Shows σ st)
    (hworld : st'.world.tasks = st.world.tasks) (hgrows : Grows st.tags st'.tags) :
    main.Shows σ st' where
  eventList := by
    rw [Store.Lists, hworld]
    exact h.eventList
  eventTagList := by
    rw [Store.Lists, hworld]
    exact h.eventTagList
  chips := h.chips.grow hgrows

theorem Page.Shows.grow {page : Page} (h : page.Shows σ days st)
    (hworld : st'.world.tasks = st.world.tasks) (hgrows : Grows st.tags st'.tags) :
    page.Shows σ days st' := by
  cases page with
  | today selectedEvents =>
      unfold Page.Shows Store.Lists
      rw [hworld]
      exact h
  | all eventList =>
      unfold Page.Shows Store.Lists
      rw [hworld]
      exact h
  | tag page =>
      refine ⟨?_, ?_, h.chips.grow hgrows, h.highlighted⟩
      · rw [Store.Lists, hworld]
        exact h.eventTagList
      · simp only [Store.Lists, hworld]
        exact h.selectedEvents

/-- The documents stay sound where those that are new are. -/
theorem Store.Sound.of_tasks (h : st.Sound σ) {w : World κ}
    (hdocs : ∀ id d, w.tasks id = some d → st.world.tasks id = some d
      ∨ (d.userId = some σ.uid ∧ d.WellFormed ∧ id ∈ st.ids)) (tags : List Tags) :
    Store.Sound σ { st with world := w, tags := tags } where
  owned id d hd := (hdocs id d hd).elim (h.owned id d) (·.1)
  listed id d hd := (hdocs id d hd).elim (h.listed id d) (·.2.2)
  nodup := h.nodup
  wellFormed id d hd := (hdocs id d hd).elim (h.wellFormed id d) (·.2.1)

theorem Store.Sound.update (h : st.Sound σ) {w : World κ} {docId : String} {o : Option TaskDoc}
    (htasks : w.tasks = Function.update st.world.tasks docId o)
    (ho : ∀ d, o = some d → d.userId = some σ.uid ∧ d.WellFormed ∧ docId ∈ st.ids)
    (tags : List Tags) : Store.Sound σ { st with world := w, tags := tags } := by
  refine h.of_tasks (fun id d hd => ?_) tags
  rw [htasks] at hd
  by_cases hid : id = docId
  · rw [hid, Function.update_self] at hd
    exact .inr (hid ▸ ho d hd)
  · rw [Function.update_of_ne hid] at hd
    exact .inl hd

/-- No stored tag has the title of one that is made, so none is replaced. -/
theorem addTags_cons {tag : Tags} {newTags tags tags' : List Tags}
    (h : addTags (tag :: newTags) tags = some tags') :
    addTags newTags (tag :: tags) = some tags' := by
  unfold addTags at h ⊢
  rw [List.foldlM_cons] at h
  cases hvalid : TagFrame.validator tags (some tag.title) with
  | some error =>
      rw [hvalid] at h
      exact absurd h (by simp)
  | none =>
      rw [hvalid] at h
      have hnew : ∀ t ∈ tags, (t.title != tag.title) = true := fun t ht =>
        bne_iff_ne.mpr ((TagFrame.validator_eq_none_iff.mp hvalid).2 t ht)
      have hadd : Tags.addTags tag tags = tag :: tags := by
        rw [Tags.addTags, List.filter_eq_self.mpr hnew]
      rw [← hadd]
      exact h

theorem grows_addTags {newTags tags tags' : List Tags} (h : addTags newTags tags = some tags') :
    Grows tags tags' := by
  induction newTags generalizing tags with
  | nil =>
      rw [← Option.some.inj h]
      exact ⟨List.Subset.refl _, le_refl _⟩
  | cons tag newTags ih =>
      have hrest := ih (addTags_cons h)
      refine ⟨fun t ht => hrest.subset (List.mem_cons_of_mem tag ht), le_trans ?_ hrest.length⟩
      exact Nat.le_succ tags.length

theorem addTags_append {newTags newTags' tags tags' tags'' : List Tags}
    (h : addTags newTags tags = some tags') (h' : addTags newTags' tags' = some tags'') :
    addTags (newTags ++ newTags') tags = some tags'' := by
  unfold addTags at h h' ⊢
  rw [List.foldlM_append, h]
  exact h'

section

variable [DecidableEq κ]

/-- **What a form leaves**: the tags that were made, and the documents as they were
unless it was saved. -/
theorem fillForm_spec (h : st.Sound σ) {calls : FormData → List Call} {own : Option String}
    {visit : Visit} {saved : Bool} {Q : World κ → Prop}
    (hsave : ∀ data, ∃ w,
      perform (exec σ.key σ.zone σ.clock) (calls data) st.world.fresh = (w, none) ∧ Q w
        ∧ ∀ tags, Store.Sound σ { st with world := w, tags := tags })
    (hfill : fillForm σ calls own visit st = some (st', saved)) :
    st'.Sound σ ∧ addTags visit.newTags st.tags = some st'.tags
      ∧ ((saved = false ∧ st'.world = st.world) ∨ (saved = true ∧ Q st'.world)) := by
  unfold fillForm at hfill
  obtain ⟨tags, htags, hfill⟩ := Option.bind_eq_some_iff.mp hfill
  cases hdata : visit.save with
  | none =>
      rw [hdata, Option.some.injEq, Prod.mk.injEq] at hfill
      obtain ⟨rfl, rfl⟩ := hfill
      exact ⟨h.of_tasks (fun id d hd => .inl hd) tags, htags, .inl ⟨rfl, rfl⟩⟩
  | some data =>
      simp only [hdata] at hfill
      obtain ⟨-, hfill⟩ := Option.ite_none_right_eq_some.mp hfill
      obtain ⟨w, hw, hQ, hsound⟩ := hsave data
      simp only [hw, Option.some.injEq, Prod.mk.injEq] at hfill
      obtain ⟨rfl, rfl⟩ := hfill
      exact ⟨hsound tags, htags, .inr ⟨rfl, hQ⟩⟩

/-- No call of an operation on a stored task throws. -/
theorem op_ends (h : st.Sound σ) {docId : String} {d : TaskDoc}
    (hd : st.world.tasks docId = some d) (op : TaskOp) :
    (perform (exec σ.key σ.zone σ.clock) (op.calls σ.zone σ.clock (.fromDS docId d))
      st.world.fresh).2 = none := by
  have hwf := h.wellFormed docId d hd
  have hread : (AppTask.fromDS docId d).WellFormed := hwf.read docId
  have hfresh : st.world.fresh.tasks (AppTask.fromDS docId d).id = some d := hd
  cases op with
  | edit data =>
      obtain ⟨w, hw, -⟩ := editTask_spec (c := σ.clock) (z := σ.zone) σ.key hfresh hwf hread data
      exact congrArg Prod.snd hw
  | complete =>
      obtain ⟨next, w, -, hw, -⟩ := completion_spec σ.key σ.zone σ.clock hfresh hwf hread
      exact congrArg Prod.snd hw
  | delete =>
      simp only [TaskOp.calls, deleteTask]
      rw [perform_cons_ok _ rfl, perform_removeNotification hread]
  | deleteFromDetails =>
      simp only [TaskOp.calls, deleteFromDetails]
      rw [perform_removeNotification hread]

/-- **What an operation on a stored task leaves**: its document as the operation
makes it, and the others as they were. -/
theorem op_spec (h : st.Sound σ) {docId : String} {d : TaskDoc}
    (hd : st.world.tasks docId = some d) (op : TaskOp) :
    ∃ w next, perform (exec σ.key σ.zone σ.clock) (op.calls σ.zone σ.clock (.fromDS docId d))
        st.world.fresh = (w, none)
      ∧ w.tasks = Function.update st.world.tasks docId
        (op.doc σ.zone σ.clock (.fromDS docId d) d next)
      ∧ ∀ tags, Store.Sound σ { st with world := w, tags := tags } := by
  have hwf := h.wellFormed docId d hd
  obtain ⟨next, -, htasks, -⟩ := performOp_spec σ.key σ.zone (σ.clock, op) hd hwf
  unfold performOp at htasks
  rw [hd] at htasks
  refine ⟨_, next, Prod.ext rfl (op_ends h hd op), htasks, h.update htasks fun d' hd' => ?_⟩
  -- what is written has the owner it had
  exact ⟨(TagList.doc_userId hd').trans (h.owned docId d hd),
    TaskOp.doc_wellFormed σ.zone σ.clock (hwf.read docId) hwf hd', h.listed docId d hd⟩

/-- The form of a stored task. -/
theorem fillForm_edit (h : st.Sound σ) {docId : String} {d : TaskDoc}
    (hd : st.world.tasks docId = some d) {visit : Visit} {saved : Bool}
    (hfill : fillForm σ (editTask σ.zone σ.clock (.fromDS docId d)) d.tag visit st
      = some (st', saved)) :
    st'.Sound σ ∧ addTags visit.newTags st.tags = some st'.tags
      ∧ (∃ d', st'.world.tasks docId = some d')
      ∧ (saved = false → st'.world.tasks = st.world.tasks) := by
  obtain ⟨hsound, htags, hworld⟩ := fillForm_spec (Q := fun w => ∃ d', w.tasks docId = some d') h
    (fun data => by
      obtain ⟨w, next, hw, htasks, hsound⟩ := op_spec h hd (.edit data)
      exact ⟨w, hw, ⟨_, by rw [htasks]; exact Function.update_self ..⟩, hsound⟩) hfill
  refine ⟨hsound, htags, ?_, fun hsaved => ?_⟩
  · rcases hworld with ⟨-, hsame⟩ | ⟨-, hstored⟩
    · exact ⟨d, by rw [hsame]; exact hd⟩
    · exact hstored
  · rcases hworld with ⟨-, hsame⟩ | ⟨htrue, -⟩
    · rw [hsame]
    · exact absurd hsaved (by simp [htrue])

/-- The edits on the details page leave it with the task as it is stored. -/
theorem editDetails_spec (visits : List Visit) (h : st.Sound σ) {docId : String} {d : TaskDoc}
    (hd : st.world.tasks docId = some d) {shown : AppTask × Store κ}
    (hedits : visits.foldlM (editDetails σ) (.fromDS docId d, st) = some shown) :
    shown.2.Sound σ ∧ addTags (visits.flatMap (·.newTags)) st.tags = some shown.2.tags
      ∧ ∃ d', shown.2.world.tasks docId = some d' ∧ shown.1 = .fromDS docId d' := by
  induction visits generalizing st d with
  | nil =>
      obtain rfl := Option.some.inj hedits
      exact ⟨h, rfl, d, hd, rfl⟩
  | cons visit visits ih =>
      rw [List.foldlM_cons] at hedits
      obtain ⟨⟨task, st₁⟩, hedit, hrest⟩ := Option.bind_eq_some_iff.mp hedits
      obtain ⟨⟨st', saved⟩, hfill, hshown⟩ := Option.map_eq_some_iff.mp hedit
      obtain ⟨hsound, htags, ⟨d', hd'⟩, hkept⟩ := fillForm_edit h hd hfill
      -- a task that is saved is read again, and one that is not is still the stored one
      have hread : st₁ = st' ∧ ∃ d₁, st'.world.tasks docId = some d₁ ∧ task = .fromDS docId d₁ := by
        cases saved with
        | false =>
            simp only [Bool.false_eq_true, if_false, Prod.mk.injEq] at hshown
            exact ⟨hshown.2.symm, d, by rw [hkept rfl, hd], hshown.1.symm⟩
        | true =>
            simp only [if_true, AppTask.fromDS_id, hd', Option.map_some, Option.getD_some,
              Prod.mk.injEq] at hshown
            exact ⟨hshown.2.symm, d', hd', hshown.1.symm⟩
      obtain ⟨rfl, d₁, hd₁, rfl⟩ := hread
      obtain ⟨hsound', htags', hlast⟩ := ih hsound hd₁ hrest
      exact ⟨hsound', addTags_append htags htags', hlast⟩

end

/-! ## Pages at hand -/

/-- A page that is ready to be read again. -/
def Page.Ready (stored : List Tags) : Page → Prop
  | .tag page => page.Ready stored
  | _ => True

theorem Page.Shows.ready {page : Page} (h : page.Shows σ days st) : page.Ready st.tags := by
  cases page with
  | tag page => exact ⟨h.chips, h.highlighted⟩
  | _ => trivial

theorem Page.Ready.grow {page : Page} {stored stored' : List Tags} (h : page.Ready stored)
    (hgrows : Grows stored stored') : page.Ready stored' := by
  cases page with
  | tag page => exact ⟨h.chips.grow hgrows, h.highlighted⟩
  | _ => trivial

theorem Page.Ready.modify {page : Page} {stored : List Tags} (h : page.Ready stored)
    (f : List AppTask → List AppTask) : (page.modify f).Ready stored := by
  cases page with
  | tag page => exact ⟨h.chips, h.highlighted⟩
  | _ => trivial

/-- A task on a page is the stored one. -/
theorem Page.Shows.stored {page : Page} (h : page.Shows σ days st) {event : AppTask}
    (hevent : event ∈ page.events) :
    ∃ d, st.world.tasks event.id = some d ∧ event = .fromDS event.id d := by
  have hof : ∀ {P : TaskDoc → Prop} {l}, st.Lists σ P l → event ∈ l →
      ∃ d, st.world.tasks event.id = some d ∧ event = .fromDS event.id d := by
    intro P l hl hmem
    obtain ⟨id, d, hd, -, rfl⟩ := (hl.mem event).mp hmem
    exact ⟨d, hd, rfl⟩
  cases page with
  | today selectedEvents =>
      obtain ⟨n, -, hl⟩ := h
      exact hof hl hevent
  | all eventList => exact hof h hevent
  | tag page =>
      obtain ⟨tag, -, hl⟩ := h.selectedEvents
      exact hof hl hevent

theorem App.Inv.found (h : s.Inv σ days) {docId : String} {event : AppTask}
    (hfind : s.find docId = some event) :
    ∃ page d, s.page = some page ∧ s.store.world.tasks docId = some d
      ∧ event = .fromDS docId d := by
  obtain ⟨page, hpage, hevent⟩ := Option.bind_eq_some_iff.mp hfind
  have hid : event.id = docId := by simpa using List.find?_some hevent
  obtain ⟨d, hd, heq⟩ := (h.page page hpage).stored (List.mem_of_find?_eq_some hevent)
  rw [hid] at hd heq
  exact ⟨page, d, hpage, hd, heq⟩

/-! ## What comes after an operation -/

theorem inv_reload (hs : s.store.Sound σ) {page : Page} (hpage : s.page = some page)
    (hready : page.Ready s.store.tags) {now : DateTime}
    (hnow : now.epochDay σ.zone ∈ days) : (reload σ now s).Inv σ days := by
  unfold reload
  rw [hpage]
  cases page with
  | today selectedEvents => exact inv_today hs hnow
  | all eventList => exact inv_all hs
  | tag page => exact ListTag.Ready.inv hready hs hready.highlighted

/-- The page and the list body are still right where no document has changed. -/
theorem App.Inv.grow (h : s.Inv σ days) (hst : st.Sound σ)
    (hgrows : Grows s.store.tags st.tags)
    (htasks : st.world.tasks = s.store.world.tasks) : App.Inv σ days { s with store := st } :=
  ⟨hst, h.main.grow htasks hgrows, fun page hpage => (h.page page hpage).grow htasks hgrows⟩

/-- The list body and the lists of the day and of all tasks stay as they are when a
form is left without saving, and then no document has changed. -/
theorem inv_afterAdd (hs : s.store.Sound σ)
    (hready : ∀ page, s.page = some page → page.Ready s.store.tags) {saved : Bool}
    (hkept : saved = false → s.Inv σ days) {now : DateTime}
    (hnow : now.epochDay σ.zone ∈ days) : (afterAdd σ now saved s).Inv σ days := by
  unfold afterAdd
  cases hpage : s.page with
  | none =>
      cases saved with
      | false => exact hkept rfl
      | true => exact inv_getMainPageEvents hs fun page hp => absurd hp (by simp [hpage])
  | some page =>
      have hpageReady := hready page hpage
      cases page with
      | tag page => exact ListTag.Ready.inv hpageReady hs hpageReady.highlighted
      | today | all =>
          cases saved with
          | false => exact hkept rfl
          | true => exact inv_reload hs hpage hpageReady hnow

theorem inv_afterEdit (hs : s.store.Sound σ) {page : Page} (hpage : s.page = some page)
    (hready : page.Ready s.store.tags) {saved : Bool}
    (hkept : saved = false → s.Inv σ days) {now : DateTime}
    (hnow : now.epochDay σ.zone ∈ days) : (afterEdit σ now saved s).Inv σ days := by
  unfold afterEdit
  rw [hpage]
  cases page with
  | tag page => exact ListTag.Ready.inv hready hs hready.pos
  | today | all =>
      cases saved with
      | false => exact hkept rfl
      | true => exact inv_reload hs hpage hready hnow

/-- Only the list of the deleted task is not read again: it has lost its row. -/
theorem lists_remove {docId : String} {d : TaskDoc} (hd : st.world.tasks docId = some d)
    (h : st.Lists σ P l) {w : World κ}
    (htasks : w.tasks = Function.update st.world.tasks docId none) (tags : List Tags) :
    Store.Lists σ { st with world := w, tags := tags } P
      (ListViews.remove l (.fromDS docId d)) := by
  refine h.eraseP (fun id d' hd' => ?_) htasks
  constructor
  · intro hbeq
    by_contra hid
    rw [AppTask.beq_of_id_ne hid] at hbeq
    exact absurd hbeq (by simp)
  · rintro rfl
    rw [hd, Option.some.injEq] at hd'
    rw [← hd']
    exact AppTask.beq_self _

theorem inv_afterDelete (h : s.Inv σ days) {page : Page} (hpage : s.page = some page)
    {docId : String} {d : TaskDoc} (hd : s.store.world.tasks docId = some d) {w : World κ}
    (htasks : w.tasks = Function.update s.store.world.tasks docId none)
    (hw : Store.Sound σ { s.store with world := w }) :
    (afterDelete σ (App.withWorld w
      { s with page := some (page.modify (ListViews.remove · (.fromDS docId d))) })).Inv
        σ days := by
  have hshows := h.page page hpage
  cases page with
  | tag page =>
      have hready : page.Ready s.store.tags := hshows.ready
      exact inv_updateTaskAt hw (List.getElem?_eq_getElem hready.highlighted)
        (hready.chips.mem _ (List.getElem_mem hready.highlighted)) hready.le
  | today selectedEvents =>
      refine inv_getMainPageEvents hw fun page hp => ?_
      obtain ⟨n, hn, hl⟩ := hshows
      rw [← Option.some.inj hp]
      exact ⟨n, hn, lists_remove hd hl htasks _⟩
  | all eventList =>
      refine inv_getMainPageEvents hw fun page hp => ?_
      rw [← Option.some.inj hp]
      exact lists_remove hd hshows htasks _

/-- The bin: the tag goes, the tasks that were under it lose theirs, and the list
goes back to all tags. -/
theorem onAccept_spec (h : s.Inv σ days) {page : ListTag} (hpage : s.page = some (.tag page))
    (tag : Tags) : ∃ st, st.Sound σ
      ∧ ListTag.onAccept σ tag page s = ListTag.updateTaskAt σ 0 { page with selectedIndex := 0 }
        { s with store := st, page := some (.tag { page with selectedIndex := 0 }) } := by
  have hshows : page.Shows σ s.store := h.page _ hpage
  -- the bin goes through tasks that are stored
  have hevents := lists_getMatchyEvent hshows.eventTagList tag
  have hstored : ∀ event ∈ TagList.getMatchyEvent tag page.eventTagList,
      (s.store.world.tasks event.id).isSome := by
    intro event hevent
    obtain ⟨id, d, hd, -, rfl⟩ := (hevents.mem event).mp hevent
    rw [AppTask.fromDS_id, hd]
    rfl
  obtain ⟨w, hw, htasks⟩ := TagList.perform_removeTagTask _ hstored
  refine ⟨{ s.store with world := w, tags := Tags.removeTag tag s.store.tags },
    h.store.of_tasks (fun id d' hd' => .inr ?_) _, ?_⟩
  · rw [htasks] at hd'
    obtain ⟨d, hd, hd'⟩ := Option.map_eq_some_iff.mp hd'
    have hwf := h.store.wellFormed id d hd
    have hlisted := h.store.listed id d hd
    have howned := h.store.owned id d hd
    rw [← hd']
    split
    · exact ⟨howned, ⟨hwf.time_isSome, hwf.reminder_never, hwf.streak_nonneg⟩, hlisted⟩
    · exact ⟨howned, hwf, hlisted⟩
  · unfold ListTag.onAccept
    simp only [hw, Option.isNone_none, if_true]

/-! ## One operation -/

/-- The tags that are made on the way. -/
def Event.newTags : Event → List Tags
  | .add _ _ visit _ | .edit _ visit _ => visit.newTags
  | .details _ visits _ _ => visits.flatMap (·.newTags)
  | _ => []

/-- When the list of the day is read, if it is. -/
def Event.now : Event → Option DateTime
  | .add _ _ _ now | .edit _ _ now | .details _ _ _ now | .complete _ now => some now
  | _ => none

def Event.isEdit : Event → Bool
  | .edit .. => true
  | _ => false

/-- Whether the list of a tag is read under the chip that is highlighted. -/
def Event.rereads : Event → Bool
  | .add .. | .details .. | .complete .. | .delete .. => true
  | _ => false

/-- The list of a tag is that of the chip that is highlighted. -/
def ListTag.Named (σ : Session κ) (st : Store κ) (page : ListTag) : Prop :=
  ∃ tag, page.tags[page.selectedIndex]? = some tag
    ∧ st.Lists σ (fun d => (Shown σ d ∧ d.tag.isSome = true) ∧ Matches tag d) page.selectedEvents

/-- What an operation does: a page is turned to, a form is left, the page is read
again, a task is deleted, or a tag dropped. -/
inductive Moves (σ : Session κ) (days : Set ℤ) (s : App κ) (e : Event) : App κ → Prop
  | turned (page : Option Page)
      (shows : ∀ p, page = some p → p.Shows σ days s.store)
      (named : ∀ p, page = some (.tag p) → s.page = page ∨ p.Named σ s.store) :
      Moves σ days s e { s with page := page }
  | added (st : Store κ) (saved : Bool) (now : DateTime) (rereads : e.rereads = true)
      (sound : st.Sound σ) (tags : addTags e.newTags s.store.tags = some st.tags)
      (kept : saved = false → st.world.tasks = s.store.world.tasks)
      (onDay : now.epochDay σ.zone ∈ days) :
      Moves σ days s e (afterAdd σ now saved { s with store := st })
  | edited (page : Page) (st : Store κ) (saved : Bool) (now : DateTime)
      (isEdit : e.isEdit = true) (here : s.page = some page)
      (sound : st.Sound σ) (tags : addTags e.newTags s.store.tags = some st.tags)
      (kept : saved = false → st.world.tasks = s.store.world.tasks)
      (onDay : now.epochDay σ.zone ∈ days) :
      Moves σ days s e (afterEdit σ now saved { s with store := st })
  | reloaded (page : Page) (f : List AppTask → List AppTask) (st : Store κ) (now : DateTime)
      (rereads : e.rereads = true) (here : s.page = some page)
      (sound : st.Sound σ) (tags : addTags e.newTags s.store.tags = some st.tags)
      (onDay : now.epochDay σ.zone ∈ days) :
      Moves σ days s e (reload σ now { s with store := st, page := some (page.modify f) })
  | deleted (page : Page) (docId : String) (d : TaskDoc) (w : World κ)
      (rereads : e.rereads = true) (here : s.page = some page)
      (stored : s.store.world.tasks docId = some d)
      (tasks : w.tasks = Function.update s.store.world.tasks docId none)
      (sound : Store.Sound σ { s.store with world := w })
      (tags : addTags e.newTags s.store.tags = some s.store.tags) :
      Moves σ days s e (afterDelete σ (App.withWorld w
        { s with page := some (page.modify (ListViews.remove · (.fromDS docId d))) }))
  | dropped (page : ListTag) (tag : Tags) (here : s.page = some (.tag page)) :
      Moves σ days s e (ListTag.onAccept σ tag page s)

theorem Page.modify_id (page : Page) : page.modify id = page := by
  cases page <;> rfl

/-- The list of a tag, as it is opened. -/
theorem named_opened (h : s.main.Shows σ s.store) :
    ListTag.Named σ s.store ⟨0, s.main.eventTagList, s.main.eventTagList, s.main.tagList⟩ := by
  refine ⟨Tags.all, h.chips.all, h.eventTagList.congr fun _ _ _ => ?_⟩
  have hall : Matches Tags.all = fun _ => True := by
    funext d
    simp [Matches, Tags.all]
  rw [hall, and_true]

theorem ListTag.Shows.chip {page : ListTag} (h : page.Shows σ st) {index : ℕ} {tag : Tags}
    (htag : page.tags[index]? = some tag) :
    ListTag.Named σ st { page with
      selectedIndex := index
      selectedEvents := TagList.getMatchyEvent tag page.eventTagList } :=
  ⟨tag, htag, lists_getMatchyEvent h.eventTagList tag⟩

section Moves

variable [DecidableEq κ]

/-- **What one operation does**, from a state in which the pages show what is
stored. -/
theorem App.Inv.moves {s' : App κ} {e : Event} (h : s.Inv σ days)
    (hclock : σ.clock.now.epochDay σ.zone ∈ days)
    (hnow : ∀ now, e.now = some now → now.epochDay σ.zone ∈ days)
    (hstep : step σ s e = some s') : Moves σ days s e s' := by
  cases e with
  | openToday =>
      obtain ⟨-, hs'⟩ := Option.ite_none_right_eq_some.mp hstep
      rw [← Option.some.inj hs']
      refine .turned _ (fun p hp => ?_) fun p hp => absurd hp (by simp)
      rw [← Option.some.inj hp]
      exact ⟨_, hclock, lists_getEventsForDay h.main.eventList _⟩
  | openAll =>
      obtain ⟨-, hs'⟩ := Option.ite_none_right_eq_some.mp hstep
      rw [← Option.some.inj hs']
      refine .turned _ (fun p hp => ?_) fun p hp => absurd hp (by simp)
      rw [← Option.some.inj hp]
      exact h.main.eventList
  | openTag =>
      obtain ⟨-, hs'⟩ := Option.ite_none_right_eq_some.mp hstep
      rw [← Option.some.inj hs']
      have hnamed := named_opened h.main
      obtain ⟨tag, htag, hl⟩ := hnamed
      have hpos : 0 < s.main.tagList.length := (List.getElem?_eq_some_iff.mp htag).1
      refine .turned _ (fun p hp => ?_) fun p hp => ?_
      · rw [← Option.some.inj hp]
        exact ⟨h.main.eventTagList, ⟨tag, List.mem_of_getElem? htag, hl⟩, h.main.chips, hpos⟩
      · rw [← Page.tag.inj (Option.some.inj hp)]
        exact .inr ⟨tag, htag, hl⟩
  | back =>
      obtain ⟨page, -, rfl⟩ := Option.map_eq_some_iff.mp hstep
      exact .turned none (fun p hp => absurd hp (by simp)) fun p hp => absurd hp (by simp)
  | chip index =>
      simp only [step] at hstep
      split at hstep
      · next page hpage =>
        obtain ⟨tag, htag, rfl⟩ := Option.map_eq_some_iff.mp hstep
        have hshows : page.Shows σ s.store := h.page _ hpage
        have hnamed := hshows.chip htag
        refine .turned _ (fun p hp => ?_) fun p hp => ?_
        · rw [← Option.some.inj hp]
          exact ⟨hshows.eventTagList,
            ⟨tag, List.mem_of_getElem? htag, lists_getMatchyEvent hshows.eventTagList tag⟩,
            hshows.chips, (List.getElem?_eq_some_iff.mp htag).1⟩
        · rw [← Page.tag.inj (Option.some.inj hp)]
          exact .inr hnamed
      · exact absurd hstep (by simp)
  | drop tag =>
      simp only [step] at hstep
      split at hstep
      · next page hpage =>
        obtain ⟨-, hs'⟩ := Option.ite_none_right_eq_some.mp hstep
        rw [← Option.some.inj hs']
        exact .dropped page tag hpage
      · exact absurd hstep (by simp)
  | delete docId =>
      obtain ⟨event, hfind, rfl⟩ := Option.map_eq_some_iff.mp hstep
      obtain ⟨page, d, hpage, hd, rfl⟩ := h.found hfind
      obtain ⟨w, next, hw, htasks, hsound⟩ := op_spec h.store hd .delete
      have hw' : perform (exec σ.key σ.zone σ.clock)
          (deleteTask σ.zone σ.clock (.fromDS docId d)) s.store.world.fresh = (w, none) := hw
      simp only [handle, hw', hpage, Option.map_some]
      exact .deleted page docId d w rfl hpage hd htasks (hsound _) rfl
  | complete docId now =>
      obtain ⟨event, hfind, hs'⟩ := Option.map_eq_some_iff.mp hstep
      obtain ⟨page, d, hpage, hd, rfl⟩ := h.found hfind
      split at hs'
      · rw [← hs']
        exact .turned s.page h.page fun _ _ => .inl rfl
      · obtain ⟨w, next, hw, -, hsound⟩ := op_spec h.store hd .complete
        have hw' : perform (exec σ.key σ.zone σ.clock)
            (completion σ.zone σ.clock (.fromDS docId d)) s.store.world.fresh = (w, none) := hw
        rw [← hs']
        simp only [handle, hw', hpage, Option.map_some]
        exact .reloaded page _ _ now rfl hpage (hsound _) rfl (hnow now rfl)
  | details docId visits confirm now =>
      obtain ⟨event, hfind, hs'⟩ := Option.bind_eq_some_iff.mp hstep
      obtain ⟨page, d, hpage, hd, rfl⟩ := h.found hfind
      obtain ⟨⟨task, st⟩, hedits, rfl⟩ := Option.map_eq_some_iff.mp hs'
      obtain ⟨hst, htags, d', hd', rfl⟩ := editDetails_spec visits h.store hd hedits
      -- the deletion on the details page leaves the documents
      have hlast : ∃ w, perform (exec σ.key σ.zone σ.clock)
          (if confirm then deleteFromDetails σ.zone σ.clock (.fromDS docId d') else [])
          st.world.fresh = (w, none)
        ∧ ∀ tags, Store.Sound σ { st with world := w, tags := tags } := by
        cases confirm with
        | false => exact ⟨_, rfl, hst.of_tasks fun id d hd => .inl hd⟩
        | true =>
            obtain ⟨w, next, hw, -, hsound⟩ := op_spec hst hd' .deleteFromDetails
            exact ⟨w, hw, hsound⟩
      obtain ⟨w, hw, hsound⟩ := hlast
      simp only [hw]
      have hmoved : Moves σ days s (.details docId visits confirm now)
          (reload σ now { s with
            store := { st with world := w }, page := some (page.modify id) }) :=
        .reloaded page id _ now rfl hpage (hsound _) htags (hnow now rfl)
      rwa [page.modify_id, ← hpage] at hmoved
  | edit docId visit now =>
      obtain ⟨event, hfind, hs'⟩ := Option.bind_eq_some_iff.mp hstep
      obtain ⟨page, d, hpage, hd, rfl⟩ := h.found hfind
      obtain ⟨⟨st, saved⟩, hfill, rfl⟩ := Option.map_eq_some_iff.mp hs'
      obtain ⟨hst, htags, -, hkept⟩ := fillForm_edit h.store hd hfill
      exact .edited page st saved now rfl hpage hst htags hkept (hnow now rfl)
  | add docId uuid visit now =>
      simp only [step] at hstep
      split at hstep
      · exact absurd hstep (by simp)
      · next hnew =>
        obtain ⟨⟨st, saved⟩, hfill, rfl⟩ := Option.map_eq_some_iff.mp hstep
        have hids : Store.Sound σ { s.store with ids := docId :: s.store.ids } :=
          ⟨h.store.owned, fun id d hd => List.mem_cons_of_mem _ (h.store.listed id d hd),
            List.nodup_cons.mpr ⟨hnew, h.store.nodup⟩, h.store.wellFormed⟩
        obtain ⟨hst, htags, hworld⟩ := fillForm_spec (Q := fun _ => True) hids (fun data => by
          have hwf := newTask_wellFormed σ.zone σ.uid uuid data
          refine ⟨_, createTask_spec σ.key docId hwf, trivial, hids.update rfl fun d hd => ?_⟩
          rw [← Option.some.inj hd]
          exact ⟨rfl, hwf, List.mem_cons_self⟩) hfill
        refine .added st saved now rfl hst htags (fun hsaved => ?_) (hnow now rfl)
        rcases hworld with ⟨-, hsame⟩ | ⟨htrue, -⟩
        · rw [hsame]
        · exact absurd hsaved (by simp [htrue])

end Moves

end AquaFocus.TaskPages
