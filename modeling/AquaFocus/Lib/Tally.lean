/-
Amounts that the steps of a run add up to.

`tally step amount s es` is the sum of `amount` over the steps of the run `es`
from `s`, each taken in the state before it. Where every step changes a quantity
by its amount, a run changes it by the tally (`tally_run`): the books of a
machine balance.
-/
import AquaFocus.Lib.Runs
import Mathlib.Algebra.Group.Basic

set_option autoImplicit false

namespace Runs

variable {σ ε M : Type*} (step : σ → ε → Option σ)

/-- The sum of the amounts of the steps a run takes. -/
def tally [AddMonoid M] (amount : σ → ε → M) : σ → List ε → M
  | _, [] => 0
  | s, e :: es =>
      match step s e with
      | none => 0
      | some s' => amount s e + tally amount s' es

variable {step}

section

variable [AddMonoid M] {amount : σ → ε → M}

@[simp] theorem tally_nil (s : σ) : tally step amount s [] = 0 := rfl

theorem tally_cons {s s' : σ} {e : ε} (h : step s e = some s') (es : List ε) :
    tally step amount s (e :: es) = amount s e + tally step amount s' es := by
  rw [tally, h]

/-- A quantity that each step changes by its amount changes by the tally over a run. -/
theorem tally_run {Inv : σ → Prop} {quantity : σ → M}
    (hinv : ∀ s e s', Inv s → step s e = some s' → Inv s')
    (hstep : ∀ s e s', Inv s → step s e = some s' → quantity s' = quantity s + amount s e)
    {s t : σ} (hs : Inv s) {es : List ε} (h : run step s es = some t) :
    quantity t = quantity s + tally step amount s es := by
  induction es generalizing s with
  | nil =>
      rw [run_nil, Option.some.injEq] at h
      rw [h, tally_nil, add_zero]
  | cons e es ih =>
      rw [run_cons, Option.bind_eq_some_iff] at h
      obtain ⟨s', hs', h⟩ := h
      rw [ih (hinv s e s' hs hs') h, hstep s e s' hs hs', tally_cons hs', add_assoc]

/-- What holds of the amount of every step, and of sums, holds of the tally. -/
theorem tally_closed {Inv : σ → Prop} {E : ε → Prop} {P : M → Prop} (hzero : P 0)
    (hadd : ∀ a b, P a → P b → P (a + b))
    (hinv : ∀ s e s', Inv s → E e → step s e = some s' → Inv s')
    (hstep : ∀ s e s', Inv s → E e → step s e = some s' → P (amount s e)) {s : σ} (hs : Inv s)
    {es : List ε} (hes : ∀ e ∈ es, E e) : P (tally step amount s es) := by
  induction es generalizing s with
  | nil => exact hzero
  | cons e es ih =>
      have he : E e := hes e List.mem_cons_self
      cases hs' : step s e with
      | none =>
          rw [tally, hs']
          exact hzero
      | some s' =>
          rw [tally_cons hs']
          apply hadd _ _ (hstep s e s' hs he hs')
          exact ih (hinv s e s' hs he hs') fun f hf => hes f (List.mem_cons_of_mem e hf)

end

theorem tally_add [AddCommMonoid M] (f g : σ → ε → M) (s : σ) (es : List ε) :
    tally step (fun s e => f s e + g s e) s es = tally step f s es + tally step g s es := by
  induction es generalizing s with
  | nil => exact (add_zero 0).symm
  | cons e es ih =>
      cases hs' : step s e with
      | none =>
          rw [tally, tally, tally, hs']
          exact (add_zero 0).symm
      | some s' => rw [tally_cons hs', tally_cons hs', tally_cons hs', ih, add_add_add_comm]

end Runs
