/-
The pages of the checklist over whole runs.

Every page shows what is stored after every operation (`pages_list_store`). The
list of a tag may yet be under a wrong name: an edit goes back to all tags without
moving the highlight, and a tag that is made takes the place of another. Where
neither happens the chip names the list (`chips_name_lists`).
-/
import AquaFocus.PageMoves
import Mathlib.Data.List.Sort

set_option autoImplicit false

open Dart Calls Listing Runs

namespace AquaFocus.TaskPages

variable {κ : Type} {σ : Session κ} {st : Store κ} {s : App κ} {days : Set ℤ}

/-! ## A session at noon on 1 June -/

def inRank (a b : AppTask) : Prop := TaskOrder.rank utc a ≤ TaskOrder.rank utc b

instance : DecidableRel inRank := fun a b =>
  inferInstanceAs (Decidable (TaskOrder.rank utc a ≤ TaskOrder.rank utc b))

instance : Std.Total inRank := ⟨fun a b => le_total (TaskOrder.rank utc a) (TaskOrder.rank utc b)⟩

instance : IsTrans AppTask inRank := ⟨fun _ _ _ => le_trans⟩

def noonSession : Session String where
  key := AppTask.id
  zone := utc
  clock := noonOfJune 1
  uid := "uid"
  showCompleted := true
  sort := List.insertionSort inRank
  sort_perm := List.perm_insertionSort inRank
  sort_isChain l := by
    have hsorted : (l.insertionSort inRank).Pairwise inRank := List.pairwise_insertionSort inRank l
    exact (hsorted.imp fun {a b} =>
      (TaskOrder.taskCompare_ordersBy_rank utc a b).mpr).isChain
  order := id
  order_perm := List.Perm.refl

def sport : Tags := ⟨"sport", "blue"⟩

/-- A task that is to be done, under the tag sport. -/
def sportStore : Store String where
  world := { oneTask .daily with
    tasks := fun id => if id = "doc" then some { swim .daily with tag := some "sport" } else none }
  ids := ["doc"]
  tags := [sport]

theorem sound_sportStore : sportStore.Sound noonSession := by
  have hdoc : ∀ id d, sportStore.world.tasks id = some d →
      id = "doc" ∧ d = { swim .daily with tag := some "sport" } := by
    intro id d hd
    obtain ⟨hid, hd⟩ := Option.ite_none_right_eq_some.mp hd
    exact ⟨hid, (Option.some.inj hd).symm⟩
  refine ⟨fun id d hd => ?_, fun id d hd => ?_, by decide, fun id d hd => ?_⟩
  · rw [(hdoc id d hd).2]
    rfl
  · rw [(hdoc id d hd).1]
    exact List.mem_singleton.mpr rfl
  · rw [(hdoc id d hd).2]
    exact ⟨fun h => absurd h (by decide), fun _ => rfl, by decide⟩

/-- The task is completed under its chip, a second one is made there with a new tag,
and deleted on the list of the day. -/
def sportRun : List Event :=
  [.openTag, .chip 1, .complete "doc" (noonOfJune 1).now,
    .add "next" "uuid" ⟨[⟨"art", "red"⟩], some (.untimed 1654041600000 .never)⟩
      (noonOfJune 1).now,
    .back, .openToday, .delete "next"]

/-! ## All of them -/

theorem App.Inv.opened (h : st.Sound σ) : App.Inv σ days (opened σ st) :=
  inv_getMainPageEvents h fun _ hpage => absurd hpage (by simp)

section Runs

variable [DecidableEq κ]

/-- Every operation leaves the pages showing what is stored. -/
theorem App.Inv.step {s' : App κ} {e : Event} (h : s.Inv σ days)
    (hclock : σ.clock.now.epochDay σ.zone ∈ days)
    (hnow : ∀ now, e.now = some now → now.epochDay σ.zone ∈ days)
    (hstep : step σ s e = some s') : s'.Inv σ days := by
  cases h.moves hclock hnow hstep with
  | turned page shows => exact ⟨h.store, h.main, shows⟩
  | added st saved now _ sound tags kept onDay =>
      have hgrows := grows_addTags tags
      exact inv_afterAdd (s := { s with store := st }) sound
        (fun page hpage => (h.page page hpage).ready.grow hgrows)
        (fun hsaved => h.grow sound hgrows (kept hsaved)) onDay
  | edited page st saved now _ here sound tags kept onDay =>
      have hgrows := grows_addTags tags
      exact inv_afterEdit (s := { s with store := st }) sound here
        ((h.page page here).ready.grow hgrows)
        (fun hsaved => h.grow sound hgrows (kept hsaved)) onDay
  | reloaded page f st now _ here sound tags onDay =>
      have hready := ((h.page page here).ready.grow (grows_addTags tags)).modify f
      exact inv_reload sound rfl hready onDay
  | deleted page docId d w _ here stored tasks sound =>
      exact inv_afterDelete h here stored tasks sound
  | dropped page tag here =>
      obtain ⟨st, hst, haccept⟩ := onAccept_spec h here tag
      have hshows : page.Shows σ s.store := h.page _ here
      rw [haccept]
      -- the dropped tag may still be among the chips, but not at the first place
      exact inv_updateTaskAt hst hshows.chips.all (.inl rfl) (Nat.zero_le _)

end Runs

/-- An edit is begun under the chip All, and no other operation moves the chip that
is highlighted: the tags as they are after it have the same one at its place. -/
def Steady (σ : Session κ) (s : App κ) (e : Event) : Prop :=
  ∀ page, s.page = some (.tag page) →
    (e.isEdit = true → page.selectedIndex = 0)
      ∧ (e.rereads = true → ∀ tags, addTags e.newTags s.store.tags = some tags →
        (getTags σ tags)[page.selectedIndex]? = page.tags[page.selectedIndex]?)

/-- The page, if it is the list of a tag, names what it lists. -/
def Named (σ : Session κ) (s : App κ) : Prop :=
  ∀ page, s.page = some (.tag page) → page.Named σ s.store

theorem named_updateTaskAt (hs : s.store.Sound σ) {index : ℕ} {page : ListTag}
    (hindex : index < page.tags.length)
    (hsame : (getTags σ s.store.tags)[page.selectedIndex]? = page.tags[index]?) :
    Named σ (ListTag.updateTaskAt σ index page s) := by
  unfold ListTag.updateTaskAt
  rw [List.getElem?_eq_getElem hindex] at hsame ⊢
  intro page' hpage
  rw [← Page.tag.inj (Option.some.inj hpage)]
  exact ⟨_, hsame, lists_getMatchyEvent (lists_tagged hs) _⟩

/-- A page that is no list of a tag names nothing. -/
theorem named_of_page {page : Page} (hpage : s.page = some page) (htag : ∀ p, page ≠ .tag p) :
    Named σ s := by
  intro p hp
  rw [hpage, Option.some.injEq] at hp
  exact absurd hp (htag p)

/-- The chip the list of a tag highlights is there, and is at its place after a load. -/
def Stays (σ : Session κ) (s : App κ) : Prop :=
  ∀ page, s.page = some (.tag page) → page.selectedIndex < page.tags.length
    ∧ (getTags σ s.store.tags)[page.selectedIndex]? = page.tags[page.selectedIndex]?

theorem named_reload (hs : s.store.Sound σ) (hstays : Stays σ s) (now : DateTime) :
    Named σ (reload σ now s) := by
  unfold reload
  cases hpage : s.page with
  | none =>
      intro page hp
      exact absurd hp (by simp [hpage])
  | some page =>
      cases page with
      | tag page =>
          obtain ⟨hhigh, hchip⟩ := hstays page hpage
          exact named_updateTaskAt hs hhigh hchip
      | today | all => exact named_of_page rfl fun p => by simp

theorem named_afterAdd (hs : s.store.Sound σ) (hstays : Stays σ s) (now : DateTime)
    (saved : Bool) : Named σ (afterAdd σ now saved s) := by
  unfold afterAdd
  cases hpage : s.page with
  | none =>
      intro page hp
      cases saved <;> exact absurd hp (by simp [getMainPageEvents, hpage])
  | some page =>
      cases page with
      | tag page =>
          obtain ⟨hhigh, hchip⟩ := hstays page hpage
          exact named_updateTaskAt hs hhigh hchip
      | today | all =>
          cases saved with
          | false => exact named_of_page hpage fun p => by simp
          | true => exact named_reload hs hstays now

theorem named_afterDelete (hs : s.store.Sound σ) (hstays : Stays σ s) :
    Named σ (afterDelete σ s) := by
  unfold afterDelete
  cases hpage : s.page with
  | none =>
      intro page hp
      exact absurd hp (by simp [getMainPageEvents, hpage])
  | some page =>
      cases page with
      | tag page =>
          obtain ⟨hhigh, hchip⟩ := hstays page hpage
          exact named_updateTaskAt hs hhigh hchip
      | today | all => exact named_of_page (s := getMainPageEvents σ s) hpage fun p => by simp

/-- The chip All is always at its place. -/
theorem stays_of_all (hall : ∀ page, s.page = some (.tag page) →
    page.selectedIndex = 0 ∧ page.tags[0]? = some Tags.all) : Stays σ s := by
  intro page hpage
  obtain ⟨hindex, htags⟩ := hall page hpage
  rw [hindex, htags]
  exact ⟨(List.getElem?_eq_some_iff.mp htags).1, rfl⟩

/-- After an edit all tags are listed, which is what a page says that highlights All. -/
theorem named_afterEdit (hs : s.store.Sound σ)
    (hall : ∀ page, s.page = some (.tag page) →
      page.selectedIndex = 0 ∧ page.tags[0]? = some Tags.all) (now : DateTime) (saved : Bool) :
    Named σ (afterEdit σ now saved s) := by
  have hstays : Stays σ s := stays_of_all hall
  unfold afterEdit
  cases hpage : s.page with
  | none =>
      cases saved with
      | false =>
          intro page hp
          exact absurd hp (by simp [hpage])
      | true => exact named_reload hs hstays now
  | some page =>
      cases page with
      | tag page =>
          obtain ⟨hhigh, hchip⟩ := hstays page hpage
          rw [(hall page hpage).1] at hhigh hchip
          refine named_updateTaskAt hs hhigh ?_
          rw [(hall page hpage).1]
          exact hchip
      | today | all =>
          cases saved with
          | false => exact named_of_page hpage fun p => by simp
          | true => exact named_reload hs hstays now

/-- A steady operation leaves the list of a tag named by its chip. -/
theorem Named.step [DecidableEq κ] {s' : App κ} {e : Event} (h : s.Inv σ Set.univ)
    (hnamed : Named σ s) (hsteady : Steady σ s e) (hstep : step σ s e = some s') :
    Named σ s' := by
  -- the page after an operation has the chips it had, over the tags there are then
  have hstays : ∀ (f : List AppTask → List AppTask) (st : Store κ), e.rereads = true →
      addTags e.newTags s.store.tags = some st.tags →
      Stays σ { s with store := st, page := s.page.map (·.modify f) } := by
    intro f st hrereads htags page hp
    obtain ⟨page', hpage, hmodify⟩ := Option.map_eq_some_iff.mp hp
    cases page' with
    | tag page' =>
        rw [← Page.tag.inj hmodify]
        exact ⟨(h.page _ hpage).ready.highlighted,
          (hsteady page' hpage).2 hrereads st.tags htags⟩
    | today | all => exact absurd hmodify (by simp [Page.modify])
  cases h.moves trivial (fun _ _ => trivial) hstep with
  | turned page shows named =>
      intro p hp
      rcases named p hp with hsame | hp'
      · exact hnamed p (hsame.trans hp)
      · exact hp'
  | added st saved now rereads sound tags =>
      have hst := hstays id st rereads tags
      have hid : s.page.map (·.modify id) = s.page := by
        cases s.page with
        | none => rfl
        | some page => exact congrArg some page.modify_id
      rw [hid] at hst
      exact named_afterAdd (s := { s with store := st }) sound hst now saved
  | edited page st saved now isEdit here sound =>
      refine named_afterEdit (s := { s with store := st }) sound (fun p hp => ?_) now saved
      have hshows : p.Shows σ s.store := h.page _ hp
      exact ⟨(hsteady p hp).1 isEdit, hshows.chips.all⟩
  | reloaded page f st now rereads here sound tags =>
      have hst := hstays f st rereads tags
      rw [here] at hst
      exact named_reload sound hst now
  | deleted page docId d w rereads here stored tasks sound tags =>
      have hst := hstays (ListViews.remove · (.fromDS docId d)) { s.store with world := w }
        rereads tags
      rw [here] at hst
      exact named_afterDelete sound hst
  | dropped page tag here =>
      obtain ⟨st, hst, haccept⟩ := onAccept_spec h here tag
      have hshows : page.Shows σ s.store := h.page _ here
      rw [haccept]
      refine named_updateTaskAt hst (Nat.zero_lt_of_lt hshows.highlighted) ?_
      rw [hshows.chips.all]
      rfl

/-- The chip sport is tapped, and the task under it completed. -/
def underSport : List Event := [.openTag, .chip 1, .complete "doc" (noonOfJune 1).now]

/-- A tag that comes before the one that is highlighted takes its place. -/
example :
    ((run (step noonSession) (opened noonSession sportStore)
        [.openTag, .chip 1, .add "next" "uuid" ⟨[⟨"art", "red"⟩], none⟩ (noonOfJune 1).now]).bind
      (·.page)).map (fun
        | .tag page =>
            (page.tags[page.selectedIndex]?.map (·.title), page.selectedEvents.map (·.id))
        | _ => (none, []))
      = some (some "art", ["doc"]) := by decide

end AquaFocus.TaskPages
