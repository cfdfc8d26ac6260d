/-
`lib/services/database_services.dart`: the account's document, and the
catalogue `lib/model/marine_creature.dart` it is spent on.

Each function is the store steps it is made of: a read of the document, an
update of one field, and for the balance the store's own increment. What
`addMarLives` does takes two steps, a read and a write back, and so two
definitions.
-/
import Mathlib.Data.Int.Notation
import Mathlib.Data.List.Basic

set_option autoImplicit false

namespace AquaFocus

/-! ## The catalogue -/

structure MarineCreatures where
  id : ℤ
  price : ℤ
deriving DecidableEq

def marinesCreatures : List MarineCreatures :=
  [⟨0, 0⟩, ⟨1, 180⟩, ⟨2, 300⟩, ⟨3, 600⟩, ⟨4, 900⟩, ⟨5, 1200⟩, ⟨6, 1800⟩, ⟨7, 2100⟩]

theorem price_nonneg : ∀ m ∈ marinesCreatures, 0 ≤ m.price := by decide

theorem marinesCreatures_inj :
    ∀ m ∈ marinesCreatures, ∀ m' ∈ marinesCreatures, m.id = m'.id → m = m' := by decide

/-- A creature's id is its place in the catalogue. -/
theorem marinesCreatures_id {i : ℕ} {m : MarineCreatures} (h : marinesCreatures[i]? = some m) :
    m.id = i := by
  obtain ⟨hi, rfl⟩ := List.getElem?_eq_some_iff.mp h
  have hall : ∀ i : Fin marinesCreatures.length, (marinesCreatures.get i).id = i := by decide
  exact hall ⟨i, hi⟩

/-! ## The account's document -/

/-- The fields the shop uses. A document may lack the list. -/
structure UserDoc where
  money : ℤ
  marlives : Option (List ℤ)
deriving DecidableEq

namespace UserDoc

/-- `FieldValue.increment`. -/
def addMoney (amt : ℤ) (doc : UserDoc) : UserDoc := { doc with money := doc.money + amt }

def getMoney (doc : UserDoc) : ℤ := doc.money

def hasEnoughMoney (price : ℤ) (doc : UserDoc) : Bool := decide (doc.getMoney ≥ price)

/-- `getList`, which reads a missing field as an empty list. -/
def getMarLivesList (doc : UserDoc) : List ℤ := doc.marlives.getD []

/-- What `addMarLives` makes of the list it read. -/
def withMarLife (marId : ℤ) (marList : List ℤ) : List ℤ :=
  if marList.contains marId then marList else marList ++ [marId]

/-- What `addMarLives` writes back, having read `marList`. -/
def writeMarLives (marId : ℤ) (marList : List ℤ) (doc : UserDoc) : UserDoc :=
  { doc with marlives := some (withMarLife marId marList) }

/-- `addMarLives`, when nothing comes between its two steps. -/
def addMarLives (marId : ℤ) (doc : UserDoc) : UserDoc :=
  doc.writeMarLives marId doc.getMarLivesList

@[simp] theorem addMoney_money (amt : ℤ) (doc : UserDoc) :
    (doc.addMoney amt).money = doc.money + amt := rfl

@[simp] theorem addMoney_marLives (amt : ℤ) (doc : UserDoc) :
    (doc.addMoney amt).getMarLivesList = doc.getMarLivesList := rfl

@[simp] theorem writeMarLives_money (marId : ℤ) (marList : List ℤ) (doc : UserDoc) :
    (doc.writeMarLives marId marList).money = doc.money := rfl

@[simp] theorem writeMarLives_marLives (marId : ℤ) (marList : List ℤ) (doc : UserDoc) :
    (doc.writeMarLives marId marList).getMarLivesList = withMarLife marId marList := rfl

@[simp] theorem addMarLives_money (marId : ℤ) (doc : UserDoc) :
    (doc.addMarLives marId).money = doc.money := rfl

theorem hasEnoughMoney_iff {price : ℤ} {doc : UserDoc} :
    doc.hasEnoughMoney price = true ↔ price ≤ doc.money :=
  decide_eq_true_iff

theorem mem_withMarLife {marId : ℤ} {marList : List ℤ} {x : ℤ} :
    x ∈ withMarLife marId marList ↔ x ∈ marList ∨ x = marId := by
  unfold withMarLife
  by_cases h : marList.contains marId = true
  · rw [if_pos h]
    have hmem : marId ∈ marList := List.contains_iff_mem.mp h
    exact ⟨.inl, fun hor => hor.elim id fun heq => heq ▸ hmem⟩
  · rw [if_neg h, List.mem_append, List.mem_singleton]

theorem mem_addMarLives {marId : ℤ} {doc : UserDoc} {x : ℤ} :
    x ∈ (doc.addMarLives marId).getMarLivesList ↔ x ∈ doc.getMarLivesList ∨ x = marId :=
  mem_withMarLife

end UserDoc

end AquaFocus
