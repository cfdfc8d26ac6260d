/-
Comparators, as sorting takes them: `compare a b` is negative, zero or positive.

A comparator is lawful when it says 0 of an element and itself, answers the two
directions of a pair with opposite signs, and is transitive where it says at
most 0. One that compares keys is `byKey key tie`, which answers -1 or 1 where
the keys differ and `tie` where they do not. What its ties are decides which of
the laws it has (`opposite_byKey_iff`); that it orders by the key needs of them
only that they are at most 0 (`byKey_ordersBy`).
-/
import Mathlib.Data.List.Chain
import Mathlib.Algebra.Order.Ring.Int
import Mathlib.Data.Prod.Lex

set_option autoImplicit false

namespace Comparator

variable {α κ : Type*}

/-- Opposite signs, or both 0. -/
def Opposite (x y : ℤ) : Prop := (x < 0 ∧ 0 < y) ∨ (x = 0 ∧ y = 0) ∨ (0 < x ∧ y < 0)

theorem opposite_self_iff {x : ℤ} : Opposite x x ↔ x = 0 := by
  unfold Opposite
  omega

/-- What sorting elements of `P` asks of a comparator. -/
structure LawfulOn (P : α → Prop) (compare : α → α → ℤ) : Prop where
  refl : ∀ a, P a → compare a a = 0
  opposite : ∀ a b, P a → P b → Opposite (compare a b) (compare b a)
  trans : ∀ a b c, P a → P b → P c → compare a b ≤ 0 → compare b c ≤ 0 → compare a c ≤ 0

/-! ## Ordering by a key -/

section OrdersBy

variable [LinearOrder κ] {compare : α → α → ℤ} {key : α → κ}

/-- The comparator says at most 0 exactly where the keys are in order. -/
def OrdersBy (compare : α → α → ℤ) (key : α → κ) : Prop :=
  ∀ a b, compare a b ≤ 0 ↔ key a ≤ key b

theorem OrdersBy.trans (h : OrdersBy compare key) {a b c : α} (hab : compare a b ≤ 0)
    (hbc : compare b c ≤ 0) : compare a c ≤ 0 :=
  (h a c).mpr (le_trans ((h a b).mp hab) ((h b c).mp hbc))

/-- Where neighbours are in order, all are. -/
theorem OrdersBy.pairwise (h : OrdersBy compare key) {l : List α}
    (hl : l.IsChain fun a b => compare a b ≤ 0) : l.Pairwise fun a b => key a ≤ key b := by
  have hkeys : l.IsChain fun a b => key a ≤ key b := hl.imp fun a b => (h a b).mp
  have : IsTrans α fun a b => key a ≤ key b := ⟨fun _ _ _ => le_trans⟩
  exact List.isChain_iff_pairwise.mp hkeys

end OrdersBy

/-! ## Comparing keys -/

section ByKey

variable [LinearOrder κ] {key : α → κ} {tie : α → ℤ}

/-- The order of the keys, and `tie` where they are the same. -/
def byKey (key : α → κ) (tie : α → ℤ) (a b : α) : ℤ :=
  if key a < key b then -1 else if key b < key a then 1 else tie a

theorem byKey_of_lt (tie : α → ℤ) {a b : α} (h : key a < key b) : byKey key tie a b = -1 :=
  if_pos h

theorem byKey_of_gt (tie : α → ℤ) {a b : α} (h : key b < key a) : byKey key tie a b = 1 := by
  rw [byKey, if_neg (not_lt_of_gt h), if_pos h]

theorem byKey_of_eq (tie : α → ℤ) {a b : α} (h : key a = key b) : byKey key tie a b = tie a := by
  rw [byKey, h, if_neg (lt_irrefl _), if_neg (lt_irrefl _)]

theorem byKey_ordersBy (htie : ∀ a, tie a ≤ 0) : OrdersBy (byKey key tie) key := by
  intro a b
  rcases lt_trichotomy (key a) (key b) with hlt | heq | hgt
  · rw [byKey_of_lt tie hlt]
    exact iff_of_true (by decide) hlt.le
  · rw [byKey_of_eq tie heq]
    exact iff_of_true (htie a) heq.le
  · rw [byKey_of_gt tie hgt]
    exact iff_of_false (by decide) (not_le_of_gt hgt)

/-- The two directions disagree as they should, except where ties do not. -/
theorem opposite_byKey_iff {a b : α} :
    Opposite (byKey key tie a b) (byKey key tie b a)
      ↔ (key a = key b → Opposite (tie a) (tie b)) := by
  rcases lt_trichotomy (key a) (key b) with hlt | heq | hgt
  · rw [byKey_of_lt tie hlt, byKey_of_gt tie hlt]
    exact iff_of_true (.inl ⟨by decide, by decide⟩) fun heq => absurd heq hlt.ne
  · rw [byKey_of_eq tie heq, byKey_of_eq tie heq.symm]
    exact ⟨fun h _ => h, fun h => h heq⟩
  · rw [byKey_of_gt tie hgt, byKey_of_lt tie hgt]
    exact iff_of_true (.inr (.inr ⟨by decide, by decide⟩)) fun heq => absurd heq hgt.ne'

/-- A second comparison, made where the first one does not decide. -/
def thenBy (x y : ℤ) : ℤ := if x = 0 then y else x

/-- Of a pair of keys the second decides where the first ones are the same. -/
theorem byKey_toLex {τ : Type*} [LinearOrder τ] (key : α → κ) (l : α → τ) (tie : α → ℤ) (a b : α) :
    byKey (fun a => toLex (key a, l a)) tie a b
      = thenBy (byKey key (fun _ => 0) a b) (byKey l tie a b) := by
  rcases lt_trichotomy (key a) (key b) with hlt | heq | hgt
  · rw [byKey_of_lt _ (Prod.Lex.toLex_lt_toLex.mpr (.inl hlt)), byKey_of_lt _ hlt]
    rfl
  · rw [byKey_of_eq _ heq, thenBy, if_pos rfl]
    rcases lt_trichotomy (l a) (l b) with hlt | heq' | hgt
    · rw [byKey_of_lt tie hlt, byKey_of_lt tie (Prod.Lex.toLex_lt_toLex.mpr (.inr ⟨heq, hlt⟩))]
    · rw [byKey_of_eq tie heq', byKey_of_eq tie (by rw [heq, heq'])]
    · rw [byKey_of_gt tie hgt,
        byKey_of_gt tie (Prod.Lex.toLex_lt_toLex.mpr (.inr ⟨heq.symm, hgt⟩))]
  · rw [byKey_of_gt _ (Prod.Lex.toLex_lt_toLex.mpr (.inl hgt)), byKey_of_gt _ hgt]
    rfl

end ByKey

end Comparator
