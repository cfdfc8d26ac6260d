/-
`screens/UserPages/Shop/shop_screen.dart` and `details_screen.dart`, tap by tap.

What the user owns stands in three places: the stored list, the list of the shop
screen, and the flag `isBought` that a details page is given when it is opened.
`_purchase` asks none of them. It keeps the first two in step, but not the flag
of the page it is called from, and the dialog it shows can be closed in two
ways: its button closes the page as well, a tap outside does not.

`chargedOnce_iff_notStale` says that this is the one way to pay twice.
-/
import AquaFocus.Purchase

set_option autoImplicit false

open Runs Interleave

namespace AquaFocus.Shop

/-! ## The screens -/

/-- The state of the shop screen. -/
structure ShopState where
  fishMoney : ℤ
  marLives : List ℤ

/-- A details page. -/
structure Page where
  marLife : MarineCreatures
  isBought : Bool

inductive Screen
  | home
  | grid (shop : ShopState)
  | details (shop : ShopState) (page : Page)
  | dialog (shop : ShopState) (page : Page) (message : String)

def Screen.shop : Screen → Option ShopState
  | .home => none
  | .grid shop | .details shop _ | .dialog shop _ _ => some shop

/-- The shop and the page on the screen, or under the dialog. -/
def Screen.page : Screen → Option (ShopState × Page)
  | .home | .grid _ => none
  | .details shop page | .dialog shop page _ => some (shop, page)

/-- A deduction: for which creature, and whether the stored list had it already. -/
structure Charge where
  marLife : MarineCreatures
  owned : Bool
deriving DecidableEq

structure App where
  doc : UserDoc
  /-- the balance the home screen shows -/
  fishMoney : ℤ
  screen : Screen
  charges : List Charge

def App.atHome (doc : UserDoc) (fishMoney : ℤ) : App := ⟨doc, fishMoney, .home, []⟩

inductive Tap
  | enterShop
  | openDetails (index : ℕ)
  | buyNow
  | ok
  | outside
  | back

/-- `_ShopScreenState._update`. -/
def ShopState.update (newLife cost : ℤ) (shop : ShopState) : ShopState :=
  ⟨shop.fishMoney - cost, shop.marLives ++ [newLife]⟩

/-- What `_purchase` does with enough money. -/
def bought (shop : ShopState) (page : Page) (s : App) : App :=
  let shop := shop.update page.marLife.id page.marLife.price
  { doc := (s.doc.addMoney (-page.marLife.price)).addMarLives page.marLife.id
    fishMoney := shop.fishMoney
    screen := .dialog shop page "You have purchased successfully!"
    charges := s.charges ++ [⟨page.marLife, s.doc.getMarLivesList.contains page.marLife.id⟩] }

/-- `_purchase`, to its end. -/
def purchase (shop : ShopState) (page : Page) (s : App) : App :=
  if s.doc.hasEnoughMoney page.marLife.price then bought shop page s
  else { s with screen := .dialog shop page "You don't have enough fish coin :(" }

/-- A tap. The dialog's button pops the dialog and the page under it. -/
def step (s : App) : Tap → Option App
  | .enterShop =>
      match s.screen with
      | .home => some { s with screen := .grid ⟨s.doc.getMoney, s.doc.getMarLivesList⟩ }
      | _ => none
  | .openDetails index =>
      match s.screen with
      | .grid shop => (marinesCreatures[index]?).map fun marLife =>
          { s with screen := .details shop ⟨marLife, shop.marLives.contains (index : ℤ)⟩ }
      | _ => none
  | .buyNow =>
      match s.screen with
      | .details shop page => some (if page.isBought then s else purchase shop page s)
      | _ => none
  | .ok =>
      match s.screen with
      | .dialog shop _ _ => some { s with screen := .grid shop }
      | _ => none
  | .outside =>
      match s.screen with
      | .dialog shop page _ => some { s with screen := .details shop page }
      | _ => none
  | .back =>
      match s.screen with
      | .home => none
      | .grid _ => some { s with screen := .home }
      | .details shop _ => some { s with screen := .grid shop }
      | .dialog shop page _ => some { s with screen := .details shop page }

/-- A purchase that runs to its end is one of the runs of `Purchase.lean`. -/
theorem purchase_run (shop : ShopState) (page : Page) (s : App) :
    ∃ es c, run (Interleave.step act) (start s.doc [page.marLife]) es = some c ∧ Settled c
      ∧ c.shared = (purchase shop page s).doc := by
  unfold purchase
  by_cases h : s.doc.hasEnoughMoney page.marLife.price = true
  · rw [if_pos h]
    refine ⟨[(0, .hasEnoughMoney), (0, .addMoney), (0, .getMarLivesList), (0, .updateMarLives)],
      ⟨_, [⟨page.marLife, .approved true .written⟩]⟩, ?_, ?_, rfl⟩
    · simp [run_cons, start, Interleave.step, act, checked, h, bought, UserDoc.addMarLives]
    · intro p hp
      rw [List.mem_singleton.mp hp]
      exact .inr (.inr rfl)
  · rw [if_neg h]
    refine ⟨[(0, .hasEnoughMoney)], ⟨s.doc, [⟨page.marLife, .refused⟩]⟩, ?_, ?_, rfl⟩
    · simp [run_cons, start, Interleave.step, act, checked, h]
    · intro p hp
      rw [List.mem_singleton.mp hp]
      exact .inr (.inl rfl)

/-! ## Charges -/

/-- What was deducted for the creature `id`. -/
def charged (id : ℤ) (charges : List Charge) : ℤ :=
  ((charges.filter fun e => e.marLife.id = id).map (·.marLife.price)).sum

/-- No creature was charged more than its price, and none that was in the stored
list already. -/
def ChargedOnce (s : App) : Prop :=
  (∀ m ∈ marinesCreatures, charged m.id s.charges ≤ m.price)
    ∧ ∀ e ∈ s.charges, e.owned = false

/-- A page that offers a creature the shop's list has. -/
def Stale (shop : ShopState) (page : Page) : Prop :=
  page.isBought = false ∧ page.marLife.id ∈ shop.marLives

/-- BUY NOW is not tapped on a stale page, with enough money. -/
def Guard (s : App) : Tap → Prop
  | .buyNow => ∀ shop page, s.screen = .details shop page → Stale shop page →
      ¬ s.doc.hasEnoughMoney page.marLife.price = true
  | _ => True

variable {s s' : App} {t : Tap}

/-- What a tap that buys nothing makes of the screen: a shop that is entered has
the stored list, and a page that is opened is not stale. -/
structure Moves (s : App) (screen : Screen) : Prop where
  shop : ∀ shop, screen.shop = some shop →
    s.screen.shop = some shop ∨ shop.marLives = s.doc.getMarLivesList
  page : ∀ shop page, screen.page = some (shop, page) →
    s.screen.page = some (shop, page) ∨ (page.marLife ∈ marinesCreatures ∧ ¬ Stale shop page)

/-- A screen of the shop and page already there. -/
theorem Moves.within {screen : Screen} (hshop : screen.shop = s.screen.shop)
    (hpage : ∀ x, screen.page = some x → s.screen.page = some x) : Moves s screen where
  shop _ h := .inl (hshop ▸ h)
  page shop page h := .inl (hpage (shop, page) h)

/-- Everything a tap can do: it shows another screen, or it buys. -/
theorem step_cases (h : step s t = some s') :
    (Guard s t ∧ ∃ screen, s' = { s with screen := screen } ∧ Moves s screen)
      ∨ ∃ shop page, t = .buyNow ∧ s.screen = .details shop page ∧ page.isBought = false
          ∧ s.doc.hasEnoughMoney page.marLife.price = true ∧ s' = bought shop page s := by
  cases t with
  | enterShop =>
      simp only [step] at h
      split at h
      · cases h
        refine .inl ⟨trivial, _, rfl, ⟨fun shop hshop => ?_, by rintro _ _ ⟨⟩⟩⟩
        cases hshop
        exact .inr rfl
      · cases h
  | openDetails index =>
      simp only [step] at h
      split at h
      · next shop hscreen =>
        obtain ⟨marLife, hmar, rfl⟩ := Option.map_eq_some_iff.mp h
        refine .inl ⟨trivial, _, rfl, ⟨fun shop' hshop' => ?_, fun shop' page hpage => ?_⟩⟩
        · rw [hscreen]
          exact .inl hshop'
        · cases hpage
          refine .inr ⟨List.mem_of_getElem? hmar, fun hstale => ?_⟩
          -- the page is given what the shop's list says of its place
          have hmem : (index : ℤ) ∈ shop.marLives := marinesCreatures_id hmar ▸ hstale.2
          have hflag : shop.marLives.contains (index : ℤ) = false := hstale.1
          exact absurd (List.contains_iff_mem.mpr hmem) (by rw [hflag]; exact Bool.false_ne_true)
      · cases h
  | buyNow =>
      simp only [step] at h
      split at h
      · next shop page hscreen =>
        cases h
        have hwithin : ∀ message, Moves s (.dialog shop page message) := by
          intro message
          exact .within (by rw [hscreen]; rfl) (fun x hx => by rw [hscreen]; exact hx)
        by_cases hbought : page.isBought = true
        · -- OWNED: the tap does nothing
          rw [if_pos hbought]
          refine .inl ⟨fun shop' page' hscreen' hstale => ?_, s.screen, rfl,
            .within rfl fun _ h => h⟩
          obtain ⟨rfl, rfl⟩ := Screen.details.inj (hscreen.symm.trans hscreen')
          exact absurd hbought (by rw [hstale.1]; exact Bool.false_ne_true)
        · rw [if_neg hbought, purchase]
          by_cases henough : s.doc.hasEnoughMoney page.marLife.price = true
          · rw [if_pos henough]
            exact .inr ⟨shop, page, rfl, hscreen, Bool.eq_false_iff.mpr hbought, henough, rfl⟩
          · -- refused: only the dialog shows
            rw [if_neg henough]
            refine .inl ⟨fun shop' page' hscreen' _ => ?_, _, rfl, hwithin _⟩
            obtain ⟨rfl, rfl⟩ := Screen.details.inj (hscreen.symm.trans hscreen')
            exact henough
      · cases h
  | ok =>
      simp only [step] at h
      split at h
      · next shop page message hscreen =>
        cases h
        exact .inl ⟨trivial, _, rfl, .within (by rw [hscreen]; rfl) (by rintro _ ⟨⟩)⟩
      · cases h
  | outside =>
      simp only [step] at h
      split at h
      · next shop page message hscreen =>
        cases h
        exact .inl ⟨trivial, _, rfl,
          .within (by rw [hscreen]; rfl) fun x hx => by rw [hscreen]; exact hx⟩
      · cases h
  | back =>
      simp only [step] at h
      split at h
      · cases h
      · next shop hscreen =>
        cases h
        exact .inl ⟨trivial, _, rfl, ⟨by rintro _ ⟨⟩, by rintro _ _ ⟨⟩⟩⟩
      · next shop page hscreen =>
        cases h
        exact .inl ⟨trivial, _, rfl, .within (by rw [hscreen]; rfl) (by rintro _ ⟨⟩)⟩
      · next shop page message hscreen =>
        cases h
        exact .inl ⟨trivial, _, rfl,
          .within (by rw [hscreen]; rfl) fun x hx => by rw [hscreen]; exact hx⟩

/-! ## What the shop knows -/

/-- The shop's list is the stored one, and has every creature charged; a stale
page is one on which its creature was charged. -/
structure Inv (s : App) : Prop where
  synced : ∀ shop, s.screen.shop = some shop → ∀ x, x ∈ shop.marLives ↔ x ∈ s.doc.getMarLivesList
  listed : ∀ shop page, s.screen.page = some (shop, page) → page.marLife ∈ marinesCreatures
  owns : ∀ e ∈ s.charges, e.marLife.id ∈ s.doc.getMarLivesList
  stale : ∀ shop page, s.screen.page = some (shop, page) → Stale shop page →
    ∃ e ∈ s.charges, e.marLife = page.marLife

theorem inv_atHome (doc : UserDoc) (fishMoney : ℤ) : Inv (.atHome doc fishMoney) where
  synced := by rintro _ ⟨⟩
  listed := by rintro _ _ ⟨⟩
  owns := by rintro _ ⟨⟩
  stale := by rintro _ _ ⟨⟩

theorem Inv.step (hs : Inv s) (h : step s t = some s') : Inv s' := by
  obtain ⟨-, screen, rfl, hmoves⟩ | ⟨shop, page, -, hscreen, -, -, rfl⟩ := step_cases h
  · refine ⟨fun shop hshop x => ?_, fun shop page hpage => ?_, hs.owns,
      fun shop page hpage hstale => ?_⟩
    · rcases hmoves.shop shop hshop with hsame | hread
      · exact hs.synced shop hsame x
      · rw [hread]
    · rcases hmoves.page shop page hpage with hsame | ⟨hlisted, -⟩
      · exact hs.listed shop page hsame
      · exact hlisted
    · rcases hmoves.page shop page hpage with hsame | ⟨-, hfresh⟩
      · exact hs.stale shop page hsame hstale
      · exact absurd hstale hfresh
  · have hshop : s.screen.shop = some shop := by rw [hscreen]; rfl
    have hpage : s.screen.page = some (shop, page) := by rw [hscreen]; rfl
    refine ⟨fun shop' hshop' x => ?_, fun shop' page' hpage' => ?_, fun e he => ?_,
      fun shop' page' hpage' _ => ?_⟩
    · cases hshop'
      have hlist : x ∈ shop.marLives ++ [page.marLife.id]
          ↔ x ∈ shop.marLives ∨ x = page.marLife.id := by
        rw [List.mem_append, List.mem_singleton]
      have hstored : x ∈ shop.marLives ∨ x = page.marLife.id
          ↔ x ∈ s.doc.getMarLivesList ∨ x = page.marLife.id :=
        or_congr_left (hs.synced shop hshop x)
      exact (hlist.trans hstored).trans UserDoc.mem_addMarLives.symm
    · cases hpage'
      exact hs.listed shop page hpage
    · apply UserDoc.mem_addMarLives.mpr
      rcases List.mem_append.mp he with hold | hnew
      · exact .inl (hs.owns e hold)
      · rw [List.mem_singleton.mp hnew]
        exact .inr rfl
    · cases hpage'
      exact ⟨_, List.mem_append_right _ (List.mem_singleton_self _), rfl⟩

/-- In every state the shop reaches, a stale page is one on which its creature
was bought already. -/
theorem charged_of_stale {doc : UserDoc} {fishMoney : ℤ} {ts : List Tap}
    (hrun : run step (.atHome doc fishMoney) ts = some s) {shop : ShopState} {page : Page}
    (hpage : s.screen.page = some (shop, page)) (hstale : Stale shop page) :
    ∃ e ∈ s.charges, e.marLife = page.marLife :=
  (run_invariant _ (fun _ _ _ hs h => hs.step h) (inv_atHome doc fishMoney) hrun).stale shop page
    hpage hstale

/-- The charges are what was deducted from the balance. -/
theorem money_add_charges {ts : List Tap} (hrun : run step s ts = some s') :
    s'.doc.money + (s'.charges.map (·.marLife.price)).sum
      = s.doc.money + (s.charges.map (·.marLife.price)).sum := by
  have hstep : ∀ u t u', u.doc.money + (u.charges.map (·.marLife.price)).sum
        = s.doc.money + (s.charges.map (·.marLife.price)).sum → step u t = some u' →
      u'.doc.money + (u'.charges.map (·.marLife.price)).sum
        = s.doc.money + (s.charges.map (·.marLife.price)).sum := by
    intro u t u' hu h
    obtain ⟨-, screen, rfl, -⟩ | ⟨shop, page, -, -, -, -, rfl⟩ := step_cases h
    · exact hu
    · simp only [bought, UserDoc.addMarLives_money, UserDoc.addMoney_money, List.map_append,
        List.map_cons, List.map_nil, List.sum_append, List.sum_cons, List.sum_nil]
      omega
  exact run_invariant _ hstep rfl hrun

/-! ## Paying once -/

theorem charged_append (id : ℤ) (charges : List Charge) (e : Charge) :
    charged id (charges ++ [e])
      = charged id charges + if e.marLife.id = id then e.marLife.price else 0 := by
  unfold charged
  rw [List.filter_append, List.map_append, List.sum_append]
  by_cases h : e.marLife.id = id
  · simp [h]
  · simp [h]

/-- Nothing was deducted for a creature that is not in the stored list. -/
theorem Inv.charged_eq_zero (hs : Inv s) {id : ℤ} (hid : id ∉ s.doc.getMarLivesList) :
    charged id s.charges = 0 := by
  have hnone : (s.charges.filter fun e => e.marLife.id = id) = [] := by
    apply List.filter_eq_nil_iff.mpr
    intro e he heq
    exact hid (of_decide_eq_true heq ▸ hs.owns e he)
  unfold charged
  rw [hnone]
  rfl

theorem chargedOnce_step_iff (hs : Inv s) (hP : ChargedOnce s) (h : step s t = some s') :
    ChargedOnce s' ↔ Guard s t := by
  obtain ⟨hguard, screen, rfl, -⟩ | ⟨shop, page, rfl, hscreen, hflag, henough, rfl⟩ := step_cases h
  · exact iff_of_true hP hguard
  · have hsynced := hs.synced shop (by rw [hscreen]; rfl)
    have hlisted := hs.listed shop page (by rw [hscreen]; rfl)
    constructor
    · rintro ⟨-, howned⟩ shop' page' hscreen' hstale
      obtain ⟨rfl, rfl⟩ := Screen.details.inj (hscreen.symm.trans hscreen')
      -- a stale page offers what is stored already, so this charge is the second
      have hmem : page.marLife.id ∈ s.doc.getMarLivesList := (hsynced _).mp hstale.2
      have hnew : s.doc.getMarLivesList.contains page.marLife.id = false :=
        howned _ (List.mem_append_right _ (List.mem_singleton_self _))
      exact absurd (List.contains_iff_mem.mpr hmem) (by rw [hnew]; exact Bool.false_ne_true)
    · intro hguard
      have hnot : page.marLife.id ∉ s.doc.getMarLivesList := by
        intro hmem
        exact hguard shop page hscreen ⟨hflag, (hsynced _).mpr hmem⟩ henough
      refine ⟨fun m hm => ?_, fun e he => ?_⟩
      · rw [bought, charged_append]
        -- the catalogue has one creature of each id
        by_cases hid : page.marLife.id = m.id
        · obtain rfl := marinesCreatures_inj _ hlisted m hm hid
          rw [if_pos rfl, hs.charged_eq_zero hnot, zero_add]
        · rw [if_neg hid, add_zero]
          exact hP.1 m hm
      · rcases List.mem_append.mp he with hold | hnew
        · exact hP.2 e hold
        · rw [List.mem_singleton.mp hnew]
          exact Bool.eq_false_iff.mpr fun hc => hnot (List.contains_iff_mem.mp hc)

/-- **A creature is charged at most once** in a run of taps exactly when BUY NOW
is never tapped, with enough money, on a page that was opened before its
creature was bought. -/
theorem chargedOnce_iff_notStale (doc : UserDoc) (fishMoney : ℤ) (ts : List Tap) :
    Always step ChargedOnce (.atHome doc fishMoney) ts
      ↔ Meets step Guard (.atHome doc fishMoney) ts := by
  have hhome : ChargedOnce (.atHome doc fishMoney) :=
    ⟨fun m hm => price_nonneg m hm, fun e he => absurd he List.not_mem_nil⟩
  have hinv : ∀ s t s', Inv s → ChargedOnce s → step s t = some s' → Guard s t → Inv s' :=
    fun _ _ _ hs _ h _ => hs.step h
  have hiff : ∀ s t s', Inv s → ChargedOnce s → step s t = some s' → (ChargedOnce s' ↔ Guard s t) :=
    fun _ _ _ hs hP h => chargedOnce_step_iff hs hP h
  exact always_iff_meets hinv hiff (inv_atHome doc fishMoney) hhome ts

/-- The turtle is bought, the dialog closed by a tap outside it, and BUY NOW
tapped again. -/
def buyTwice : List Tap := [.enterShop, .openDetails 2, .buyNow, .outside, .buyNow]

theorem not_always_chargedOnce :
    ¬ Always step ChargedOnce (.atHome ⟨1000, some []⟩ 1000) buyTwice := by
  intro h
  have hcharged : ChargedOnce _ := h buyTwice (List.prefix_refl _) _ rfl
  have hturtle : (600 : ℤ) ≤ 300 := hcharged.1 ⟨2, 300⟩ (by decide)
  omega

end AquaFocus.Shop
