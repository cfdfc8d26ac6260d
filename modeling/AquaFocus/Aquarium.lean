/-
`screens/UserPages/Aquarium/aquarium_screen.dart`, and the pictures of the
catalogue.

The aquarium goes through the stored list and, for each entry, through the whole
catalogue, and shows the picture of every place that matches. The shop marks a
creature as owned when its own list, kept up to date by the purchases, has the
place. Nothing but the stored list connects the two screens. `aquarium_of_run`
says what the aquarium shows after any run of taps in the shop: what it showed
before and then one picture for each creature bought for the first time, in
order, none of them twice, and exactly the creatures the shop marks.
-/
import AquaFocus.ShopScreen
import AquaFocus.Ledger
import Mathlib.Data.List.Nodup

set_option autoImplicit false

open Runs

namespace AquaFocus.Aquarium

open Shop

/-! ## The screen -/

/-- `image`, of each entry of `marinesCreatures`. -/
def images : List String :=
  ["assets/images/Clownfish.png", "assets/images/Jellyfish.png", "assets/images/Turtle.png",
    "assets/images/axolotl.png", "assets/images/octopus.png", "assets/images/MantaRay.png",
    "assets/images/whale.png", "assets/images/SeaShell.png"]

/-- The inner loop of `getMarLives`, over the catalogue. -/
def addMatches (aqList : List String) (marLife : ℤ) : List String :=
  (List.range marinesCreatures.length).foldl
    (fun aqList (j : ℕ) => if marLife = j then aqList ++ images[j]?.toList else aqList) aqList

/-- `getMarLives`, of a user who is signed in. -/
def getMarLives (doc : UserDoc) : List String := doc.getMarLivesList.foldl addMatches []

/-- `isBought`, the flag of the card at a place of the grid. -/
def isBought (shop : ShopState) (index : ℕ) : Bool := shop.marLives.contains (index : ℤ)

/-! ## The loops -/

/-- The picture of a stored entry; an entry that is no place has none. -/
def image (marLife : ℤ) : Option String := if 0 ≤ marLife then images[marLife.toNat]? else none

theorem length_images : images.length = marinesCreatures.length := by decide

theorem image_natCast (j : ℕ) : image j = images[j]? := if_pos (Int.natCast_nonneg j)

/-- A place of the catalogue has a picture. -/
theorem image_isSome {m : MarineCreatures} (h : m ∈ marinesCreatures) : (image m.id).isSome := by
  obtain ⟨i, hi⟩ := List.mem_iff_getElem?.mp h
  have hlt : i < images.length := length_images ▸ (List.getElem?_eq_some_iff.mp hi).1
  rw [marinesCreatures_id hi, image_natCast, List.getElem?_eq_getElem hlt]
  rfl

/-- No two places have the same picture. -/
theorem image_inj {m m' : ℤ} {picture : String} (h : image m = some picture)
    (h' : image m' = some picture) : m = m' := by
  obtain ⟨hm, hget⟩ := Option.ite_none_right_eq_some.mp h
  obtain ⟨hm', hget'⟩ := Option.ite_none_right_eq_some.mp h'
  have hlt : m.toNat < images.length := (List.getElem?_eq_some_iff.mp hget).1
  have hnodup : images.Nodup := by decide
  have hplace : m.toNat = m'.toNat :=
    (List.getElem?_inj hlt hnodup).mp (hget.trans hget'.symm)
  omega

/-- The loop up to `n` has met the entry if it is a place before `n`. -/
theorem foldl_range (marLife : ℤ) (n : ℕ) (aqList : List String) :
    (List.range n).foldl
        (fun aqList (j : ℕ) => if marLife = j then aqList ++ images[j]?.toList else aqList) aqList
      = if 0 ≤ marLife ∧ marLife < n then aqList ++ (image marLife).toList else aqList := by
  induction n with
  | zero =>
      rw [if_neg (by omega)]
      rfl
  | succ n ih =>
      rw [List.range_succ, List.foldl_append, ih, List.foldl_cons, List.foldl_nil]
      by_cases heq : marLife = n
      · -- the round of the entry itself, which no earlier one was
        rw [if_pos heq, if_neg (by omega), if_pos (by omega), heq, image_natCast]
      · rw [if_neg heq]
        by_cases hlt : 0 ≤ marLife ∧ marLife < n
        · rw [if_pos hlt, if_pos (by omega)]
        · rw [if_neg hlt, if_neg (by omega)]

theorem addMatches_eq (aqList : List String) (marLife : ℤ) :
    addMatches aqList marLife = aqList ++ (image marLife).toList := by
  unfold addMatches
  rw [foldl_range]
  by_cases hplace : 0 ≤ marLife ∧ marLife < marinesCreatures.length
  · rw [if_pos hplace]
  · rw [if_neg hplace]
    -- an entry beyond the catalogue has no picture either
    have hnone : image marLife = none := by
      unfold image
      by_cases hnonneg : 0 ≤ marLife
      · have hlength := length_images
        rw [if_pos hnonneg, List.getElem?_eq_none_iff]
        omega
      · exact if_neg hnonneg
    rw [hnone, Option.toList_none, List.append_nil]

/-- The two loops keep the entries that have a picture, in their order. -/
theorem getMarLives_eq (doc : UserDoc) : getMarLives doc = doc.getMarLivesList.filterMap image := by
  have hloop : ∀ (marLives : List ℤ) (aqList : List String),
      marLives.foldl addMatches aqList = aqList ++ marLives.filterMap image := by
    intro marLives
    induction marLives with
    | nil => exact fun aqList => (List.append_nil aqList).symm
    | cons marLife marLives ih =>
        intro aqList
        rw [List.foldl_cons, ih, addMatches_eq, List.append_assoc, List.filterMap_cons]
        cases image marLife with
        | none => rfl
        | some picture => rfl
  exact hloop doc.getMarLivesList []

theorem nodup_getMarLives {doc : UserDoc} (h : doc.getMarLivesList.Nodup) :
    (getMarLives doc).Nodup := by
  rw [getMarLives_eq]
  exact List.Nodup.filterMap (fun m m' picture hm hm' => image_inj hm hm') h

theorem mem_getMarLives {doc : UserDoc} {picture : String} :
    picture ∈ getMarLives doc ↔ ∃ m ∈ doc.getMarLivesList, image m = some picture := by
  rw [getMarLives_eq, List.mem_filterMap]

/-! ## The shop -/

/-- The creatures bought that were not in the stored list yet. -/
def firstBought (charges : List Charge) : List ℤ :=
  (charges.filter fun e => !e.owned).map (·.marLife.id)

variable {doc : UserDoc} {s s' : App} {t : Tap}

/-- What is known of the stored list after taps from `doc`. -/
structure Inv (doc : UserDoc) (s : App) : Prop where
  shop : Shop.Inv s
  list : s.doc.getMarLivesList = doc.getMarLivesList ++ firstBought s.charges
  nodup : s.doc.getMarLivesList.Nodup
  listed : ∀ e ∈ s.charges, e.marLife ∈ marinesCreatures

theorem Inv.step (h : Inv doc s) (hstep : Shop.step s t = some s') : Inv doc s' := by
  refine ⟨h.shop.step hstep, ?_, ?_, ?_⟩
  all_goals
    obtain ⟨-, screen, rfl, -⟩ | ⟨shop, page, -, hscreen, -, -, rfl⟩ := step_cases hstep
  · exact h.list
  · -- a creature that was stored already leaves the list, any other ends it
    by_cases hmem : s.doc.getMarLivesList.contains page.marLife.id = true
    · simp only [bought, UserDoc.addMarLives, UserDoc.writeMarLives_marLives,
        UserDoc.addMoney_marLives, UserDoc.withMarLife, firstBought, hmem]
      simpa [firstBought] using h.list
    · rw [Bool.not_eq_true] at hmem
      simp only [bought, UserDoc.addMarLives, UserDoc.writeMarLives_marLives,
        UserDoc.addMoney_marLives, UserDoc.withMarLife, firstBought, hmem]
      simp [h.list, firstBought]
  · exact h.nodup
  · exact Ledger.nodup_withMarLife h.nodup
  · exact h.listed
  · intro e he
    rcases List.mem_append.mp he with hold | hnew
    · exact h.listed e hold
    · -- a page is opened from the grid, which is the catalogue
      rw [List.mem_singleton.mp hnew]
      exact h.shop.listed shop page (by rw [hscreen]; rfl)

/-- **The aquarium is what was bought.** After any taps in the shop it shows what
it showed, and each creature bought for the first time after it; nothing twice;
everything that was paid for; and exactly what the shop's cards mark as owned. -/
theorem aquarium_of_run {doc : UserDoc} (hdoc : doc.getMarLivesList.Nodup) {fishMoney : ℤ}
    {ts : List Tap} {s : App} (hrun : run Shop.step (.atHome doc fishMoney) ts = some s) :
    getMarLives s.doc = getMarLives doc ++ (firstBought s.charges).filterMap image
      ∧ (getMarLives s.doc).Nodup
      ∧ (∀ e ∈ s.charges, ∃ picture, image e.marLife.id = some picture
        ∧ picture ∈ getMarLives s.doc)
      ∧ ∀ shop, s.screen.shop = some shop → ∀ index picture, images[index]? = some picture →
        (isBought shop index = true ↔ picture ∈ getMarLives s.doc) := by
  have hstart : Inv doc (.atHome doc fishMoney) :=
    ⟨inv_atHome doc fishMoney, (List.append_nil _).symm, hdoc, by rintro _ ⟨⟩⟩
  have h : Inv doc s := run_invariant _ (fun _ _ _ hs hstep => hs.step hstep) hstart hrun
  refine ⟨?_, nodup_getMarLives h.nodup, fun e he => ?_, fun shop hshop index picture hget => ?_⟩
  · rw [getMarLives_eq, h.list, List.filterMap_append, getMarLives_eq]
  · obtain ⟨picture, hpicture⟩ := Option.isSome_iff_exists.mp (image_isSome (h.listed e he))
    exact ⟨picture, hpicture, mem_getMarLives.mpr ⟨_, h.shop.owns e he, hpicture⟩⟩
  · have himage : image index = some picture := (image_natCast index).trans hget
    rw [isBought, List.contains_iff_mem, h.shop.synced shop hshop, mem_getMarLives]
    constructor
    · exact fun hmem => ⟨index, hmem, himage⟩
    · -- no other place has this picture
      rintro ⟨m, hmem, hm⟩
      exact image_inj hm himage ▸ hmem

/-- A turtle is bought twice, and shown once. -/
theorem aquarium_of_run_turtle : ∃ s,
    run Shop.step (.atHome ⟨1000, some [0]⟩ 1000)
        [.enterShop, .openDetails 2, .buyNow, .outside, .buyNow, .ok] = some s
      ∧ getMarLives s.doc = ["assets/images/Clownfish.png", "assets/images/Turtle.png"]
      ∧ (getMarLives s.doc).Nodup := by
  have hrun : ∃ s, run Shop.step (.atHome ⟨1000, some [0]⟩ 1000)
      [.enterShop, .openDetails 2, .buyNow, .outside, .buyNow, .ok] = some s
        ∧ getMarLives s.doc = ["assets/images/Clownfish.png", "assets/images/Turtle.png"] :=
    ⟨_, rfl, by decide⟩
  obtain ⟨s, hs, hshown⟩ := hrun
  exact ⟨s, hs, hshown, (aquarium_of_run (by decide) hs).2.1⟩

end AquaFocus.Aquarium
