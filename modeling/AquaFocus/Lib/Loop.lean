/-
`while` loops with a bound on their rounds, and the loops that look for the
next element of a set.

`whileLoop c f fuel s` is `while (c(s)) s = f(s)`, and `none` when `fuel`
rounds were not enough. A loop over one type can be run over another that
represents it (`whileLoop_map`).

Most loops over dates are searches: the state walks up a set in order and stops
at the first element above a bound. `IsNext A b n` says that `n` is that
element, and `whileLoop_isNext` is the one induction behind all of them.
-/
import Mathlib.Algebra.Order.Ring.Int
import Mathlib.Order.Bounds.Basic
import Mathlib.Logic.Function.Iterate
import Mathlib.Tactic.Ring
import Mathlib.Tactic.Push

set_option autoImplicit false

namespace Loop

/-! ## The next element of a set -/

section Next

variable {α : Type*} [LinearOrder α]

/-- `n` is the least element of `A` above `b`. -/
def IsNext (A : Set α) (b n : α) : Prop := IsLeast {x | x ∈ A ∧ b < x} n

theorem IsNext.mem {A : Set α} {b n : α} (h : IsNext A b n) : n ∈ A := h.1.1

theorem IsNext.lt {A : Set α} {b n : α} (h : IsNext A b n) : b < n := h.1.2

theorem IsNext.le {A : Set α} {b n x : α} (h : IsNext A b n) (hx : x ∈ A) (hb : b < x) :
    n ≤ x := h.2 ⟨hx, hb⟩

/-- The next element of a picture of `A`, in its order. -/
theorem IsNext.map {β : Type*} [LinearOrder β] {A : Set α} {B : Set β} {g : α → β}
    (hg : ∀ {x y}, g x < g y ↔ x < y) (hB : ∀ y, y ∈ B ↔ ∃ x ∈ A, y = g x) {b n : α}
    (h : IsNext A b n) : IsNext B (g b) (g n) := by
  refine ⟨⟨(hB _).mpr ⟨n, h.mem, rfl⟩, hg.mpr h.lt⟩, ?_⟩
  rintro y ⟨hy, hlt⟩
  obtain ⟨x, hx, rfl⟩ := (hB y).mp hy
  have hle : n ≤ x := h.le hx (hg.mp hlt)
  exact not_lt.mp (fun hgt => absurd (hg.mp hgt) (not_lt.mpr hle))

end Next

/-! ## Loops -/

section While

variable {α β : Type*}

/-- `while (c(s)) s = f(s)` for at most `fuel` rounds. -/
def whileLoop (c : α → Bool) (f : α → α) : ℕ → α → Option α
  | 0, s => if c s then none else some s
  | n + 1, s => if c s then whileLoop c f n (f s) else some s

theorem whileLoop_of_false {c : α → Bool} (f : α → α) (fuel : ℕ) {s : α} (h : c s = false) :
    whileLoop c f fuel s = some s := by
  cases fuel <;> simp [whileLoop, h]

theorem whileLoop_succ {c : α → Bool} (f : α → α) (fuel : ℕ) {s : α} (h : c s = true) :
    whileLoop c f (fuel + 1) s = whileLoop c f fuel (f s) := by
  simp [whileLoop, h]

/-- A loop whose state is a picture of another loop's state runs alike. -/
theorem whileLoop_map {c : α → Bool} {f : α → α} {c' : β → Bool} {f' : β → β} (g : β → α)
    (hc : ∀ x, c (g x) = c' x) (hf : ∀ x, f (g x) = g (f' x)) (fuel : ℕ) (x : β) :
    whileLoop c f fuel (g x) = (whileLoop c' f' fuel x).map g := by
  induction fuel generalizing x with
  | zero =>
      simp only [whileLoop, hc]
      split <;> rfl
  | succ n ih =>
      simp only [whileLoop, hc]
      split
      · rw [hf, ih]
      · rfl

/-- A loop that climbs by at least `δ` a round, and goes on only up to `b`, ends
when its rounds cover the distance. -/
theorem whileLoop_ends {c : α → Bool} {f : α → α} (height : α → ℤ) (b δ : ℤ)
    (hc : ∀ s, c s = true → height s ≤ b) (hf : ∀ s, height s + δ ≤ height (f s)) (fuel : ℕ)
    (s : α) (hfuel : b < height s + fuel * δ) :
    ∃ r, whileLoop c f fuel s = some r ∧ c r = false := by
  induction fuel generalizing s with
  | zero =>
      -- no rounds left: the state is past `b` already
      have hs : c s = false := by
        by_contra h
        have := hc s (by simpa using h)
        simp only [Nat.cast_zero, zero_mul] at hfuel
        omega
      exact ⟨s, whileLoop_of_false f 0 hs, hs⟩
  | succ n ih =>
      by_cases hs : c s = true
      · have hstep := hf s
        obtain ⟨r, hr, hcr⟩ := ih (f s)
          (by push_cast at hfuel; rw [add_mul, one_mul] at hfuel; omega)
        exact ⟨r, by rw [whileLoop_succ f n hs, hr], hcr⟩
      · have hs' : c s = false := by simpa using hs
        exact ⟨s, whileLoop_of_false f _ hs', hs'⟩

/-- What a loop's body keeps holds of its result. -/
theorem whileLoop_invariant {c : α → Bool} {f : α → α} (I : α → Prop)
    (hf : ∀ s, I s → c s = true → I (f s)) {fuel : ℕ} {s r : α} (hs : I s)
    (h : whileLoop c f fuel s = some r) : I r ∧ c r = false := by
  induction fuel generalizing s with
  | zero =>
      by_cases hc : c s = true
      · simp [whileLoop, hc] at h
      · rw [whileLoop, if_neg hc, Option.some.injEq] at h
        rw [← h]
        exact ⟨hs, by simpa using hc⟩
  | succ n ih =>
      by_cases hc : c s = true
      · rw [whileLoop_succ f n hc] at h
        exact ih (hf s hs hc) h
      · rw [whileLoop_of_false f _ (by simpa using hc), Option.some.injEq] at h
        rw [← h]
        exact ⟨hs, by simpa using hc⟩

/-- Two loops whose bodies agree on the way run alike. -/
theorem whileLoop_congr {c : α → Bool} {f g : α → α} (I : α → Prop)
    (h : ∀ s, I s → c s = true → f s = g s ∧ I (g s)) (fuel : ℕ) {s : α} (hs : I s) :
    whileLoop c f fuel s = whileLoop c g fuel s := by
  induction fuel generalizing s with
  | zero => rfl
  | succ n ih =>
      by_cases hc : c s = true
      · obtain ⟨heq, hg⟩ := h s hs hc
        rw [whileLoop_succ f n hc, whileLoop_succ g n hc, heq, ih hg]
      · have hc' : c s = false := by simpa using hc
        rw [whileLoop_of_false f _ hc', whileLoop_of_false g _ hc']

end While

/-! ## Searching upwards -/

/-- The search invariant, as an induction on the fuel: a loop that stands on an
element of `A` with nothing of `A` between the bound and it, and goes on to the
next element of `A`, ends at the next element of `A` after the bound. -/
theorem whileLoop_isNext_of {A : Set ℤ} {f : ℤ → ℤ} (b δ : ℤ)
    (hnext : ∀ x ∈ A, IsNext A x (f x)) (hδ : ∀ x ∈ A, x + δ ≤ f x) :
    ∀ (fuel : ℕ) (s : ℤ), s ∈ A → (∀ x ∈ A, b < x → s ≤ x) → b < s + fuel * δ →
      ∃ n, whileLoop (fun x => decide (x ≤ b)) f fuel s = some n ∧ IsNext A b n
  | 0, s, hs, hlow, hfuel => by
      -- no rounds left, so `s` is past the bound, and it is the next element
      have hbs : b < s := by simpa using hfuel
      exact ⟨s, whileLoop_of_false f 0 (by simpa using hbs), ⟨hs, hbs⟩,
        fun x hx => hlow x hx.1 hx.2⟩
  | fuel + 1, s, hs, hlow, hfuel => by
      by_cases hsb : s ≤ b
      · have hstep := hδ s hs
        -- one round: `f s` is the next element, and skips none above the bound
        have hsucc := hnext s hs
        obtain ⟨n, hn, hnn⟩ := whileLoop_isNext_of b δ hnext hδ fuel (f s) hsucc.mem
          (fun x hx hbx => hsucc.le hx (by omega))
          (by push_cast at hfuel; rw [add_mul, one_mul] at hfuel; omega)
        exact ⟨n, by rw [whileLoop_succ f fuel (by simpa using hsb), hn], hnn⟩
      · have hbs : b < s := by omega
        exact ⟨s, whileLoop_of_false f _ (by simpa using hbs), ⟨hs, hbs⟩,
          fun x hx => hlow x hx.1 hx.2⟩

/-- A search from the least element of `A` ends at the next element after the
bound, when the rounds cover the distance. -/
theorem whileLoop_isNext {A : Set ℤ} {f : ℤ → ℤ} {δ s : ℤ} (b : ℤ) (fuel : ℕ)
    (hs : IsLeast A s) (hnext : ∀ x ∈ A, IsNext A x (f x)) (hδ : ∀ x ∈ A, x + δ ≤ f x)
    (hfuel : b < s + fuel * δ) :
    ∃ n, whileLoop (fun x => decide (x ≤ b)) f fuel s = some n ∧ IsNext A b n :=
  whileLoop_isNext_of b δ hnext hδ fuel s hs.1 (fun _ hx _ => hs.2 hx) hfuel

/-- A search for a member of `Q` above two bounds: `a`, where it starts, and
`b`, which it tests. -/
theorem whileLoop_isLeast_above {Q : Set ℤ} {f : ℤ → ℤ} (a b : ℤ) (fuel : ℕ)
    (hf : ∀ n, IsNext Q n (f n)) (hfuel : b < f a + fuel) :
    ∃ n, whileLoop (fun x => decide (x ≤ b)) f fuel (f a) = some n
      ∧ IsLeast {m | m ∈ Q ∧ a < m ∧ b < m} n := by
  -- the loop searches the part of `Q` above `a`, which starts at `f a`
  have hleast : IsLeast {m | m ∈ Q ∧ a < m} (f a) := hf a
  have hnext : ∀ x ∈ {m | m ∈ Q ∧ a < m}, IsNext {m | m ∈ Q ∧ a < m} x (f x) := by
    rintro x ⟨-, hax⟩
    exact ⟨⟨⟨(hf x).mem, hax.trans (hf x).lt⟩, (hf x).lt⟩, fun y hy => (hf x).le hy.1.1 hy.2⟩
  have hδ : ∀ x ∈ {m | m ∈ Q ∧ a < m}, x + 1 ≤ f x := fun x _ => (hf x).lt
  obtain ⟨n, hn, ⟨⟨hQ, han⟩, hbn⟩, hmin⟩ :=
    whileLoop_isNext b fuel hleast hnext hδ (by omega)
  exact ⟨n, hn, ⟨hQ, han, hbn⟩, fun y hy => hmin ⟨⟨hy.1, hy.2.1⟩, hy.2.2⟩⟩

/-! ## Orbits

The values `s, f s, f (f s), …` of a step that only goes up, as a set to search. -/

/-- The values a step `f` takes from `s` on. -/
def orbit (f : ℤ → ℤ) (s : ℤ) : Set ℤ := {x | ∃ k : ℕ, x = f^[k] s}

theorem orbit_le {f : ℤ → ℤ} (hf : ∀ x, x < f x) (s : ℤ) (k : ℕ) : s ≤ f^[k] s := by
  induction k with
  | zero => exact le_refl s
  | succ k ih =>
      rw [Function.iterate_succ_apply']
      exact le_of_lt (lt_of_le_of_lt ih (hf _))

theorem isLeast_orbit {f : ℤ → ℤ} (hf : ∀ x, x < f x) (s : ℤ) : IsLeast (orbit f s) s := by
  refine ⟨⟨0, rfl⟩, ?_⟩
  rintro x ⟨k, rfl⟩
  exact orbit_le hf s k

theorem isNext_orbit {f : ℤ → ℤ} (hf : ∀ x, x < f x) (s : ℤ) :
    ∀ x ∈ orbit f s, IsNext (orbit f s) x (f x) := by
  rintro x ⟨k, rfl⟩
  refine ⟨⟨⟨k + 1, by rw [Function.iterate_succ_apply']⟩, hf _⟩, ?_⟩
  rintro y ⟨⟨j, rfl⟩, hlt⟩
  -- the iterates are ordered by their index, so `k < j`
  have hkj : k < j := by
    by_contra hle
    obtain ⟨i, rfl⟩ := Nat.exists_eq_add_of_le (not_lt.mp hle)
    rw [Nat.add_comm, Function.iterate_add_apply] at hlt
    exact absurd hlt (not_lt.mpr (orbit_le hf _ i))
  obtain ⟨i, rfl⟩ := Nat.exists_eq_add_of_lt hkj
  rw [show k + i + 1 = i + (k + 1) by omega, Function.iterate_add_apply,
    Function.iterate_succ_apply']
  exact orbit_le hf _ i

end Loop
