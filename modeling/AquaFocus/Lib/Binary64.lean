/-
Floating-point numbers of 53 bits, as the rational numbers they are.

`roundOff` takes a number to the nearest one of 53 significant bits, and to the
even one of two that are as near. Every operation of binary64 is the exact one,
rounded off. The limits of the exponent are left out: what is computed with has
to keep away from them.

`Within k x y` says that `y` is `x` but for `k` rounding errors, and goes through
a computation operation by operation.
-/
import Mathlib.Data.Int.Log
import Mathlib.Data.Rat.Floor
import Mathlib.Tactic.Linarith
import Mathlib.Tactic.Positivity
import Mathlib.Tactic.Ring
import Mathlib.Tactic.FieldSimp
import Mathlib.Algebra.Order.Field.Power
import Mathlib.Algebra.Order.Ring.Pow

set_option autoImplicit false

namespace Binary64

/-! ## Rounding -/

/-- The integer nearest to `y`, the even one of two. -/
def nearestEven (y : ℚ) : ℤ :=
  if y - ⌊y⌋ < 1 / 2 ∨ y - ⌊y⌋ = 1 / 2 ∧ ⌊y⌋ % 2 = 0 then ⌊y⌋ else ⌊y⌋ + 1

/-- The distance of the numbers of 53 bits around `x`. -/
def ulp (x : ℚ) : ℚ := 2 ^ (Int.log 2 |x| - 52)

/-- The number of 53 bits nearest to `x`, the even one of two. -/
def roundOff (x : ℚ) : ℚ := nearestEven (x / ulp x) * ulp x

theorem ulp_pos (x : ℚ) : 0 < ulp x := zpow_pos (by norm_num) _

theorem abs_nearestEven_sub (y : ℚ) : |(nearestEven y : ℚ) - y| ≤ 1 / 2 := by
  have hlo := Int.floor_le y
  have hhi := Int.lt_floor_add_one y
  unfold nearestEven
  split
  · next h =>
    rw [abs_le]
    rcases h with h | ⟨h, -⟩
    · constructor <;> linarith
    · constructor <;> linarith
  · next h =>
    rw [not_or, not_lt] at h
    rw [abs_le]
    push_cast
    constructor <;> linarith [h.1]

/-- What is nearer to an integer than a half is rounded to it. -/
theorem nearestEven_of_near {y : ℚ} {n : ℤ} (h : |y - n| < 1 / 2) : nearestEven y = n := by
  have hnear := abs_nearestEven_sub y
  rw [abs_lt] at h
  rw [abs_le] at hnear
  have hlt : (nearestEven y : ℚ) < n + 1 := by linarith
  have hgt : (n : ℚ) < nearestEven y + 1 := by linarith
  have hlt' : nearestEven y < n + 1 := by exact_mod_cast hlt
  have hgt' : n < nearestEven y + 1 := by exact_mod_cast hgt
  omega

theorem nearestEven_intCast (n : ℤ) : nearestEven n = n :=
  nearestEven_of_near (by rw [sub_self, abs_zero]; norm_num)

/-- Fifty-three bits are as precise as this. -/
theorem ulp_le (x : ℚ) (hx : x ≠ 0) : ulp x ≤ |x| / 2 ^ 52 := by
  have hlog : (2 : ℚ) ^ Int.log 2 |x| ≤ |x| := by
    exact_mod_cast Int.zpow_log_le_self (by norm_num) (abs_pos.mpr hx)
  rw [ulp, zpow_sub₀ (by norm_num)]
  exact div_le_div_of_nonneg_right hlog (by positivity)

/-- A number is rounded off by less than its own 2⁻⁵³. -/
theorem abs_roundOff_sub_le (x : ℚ) : |roundOff x - x| ≤ |x| / 2 ^ 53 := by
  by_cases hx : x = 0
  · subst hx
    have hzero : roundOff 0 = 0 := by
      rw [roundOff, zero_div]
      have := nearestEven_intCast 0
      rw [Int.cast_zero] at this
      rw [this, Int.cast_zero, zero_mul]
    rw [hzero, sub_zero, abs_zero, zero_div]
  · have hpos := ulp_pos x
    have herror : roundOff x - x = (nearestEven (x / ulp x) - x / ulp x) * ulp x := by
      rw [roundOff, sub_mul, div_mul_cancel₀ _ hpos.ne']
    calc |roundOff x - x| = |(nearestEven (x / ulp x) : ℚ) - x / ulp x| * ulp x := by
          rw [herror, abs_mul, abs_of_pos hpos]
      _ ≤ 1 / 2 * (|x| / 2 ^ 52) :=
          mul_le_mul (abs_nearestEven_sub _) (ulp_le x hx) hpos.le (by norm_num)
      _ = |x| / 2 ^ 53 := by ring

theorem roundOff_nonneg {x : ℚ} (hx : 0 ≤ x) : 0 ≤ roundOff x := by
  have h := abs_roundOff_sub_le x
  rw [abs_of_nonneg hx, abs_le] at h
  have hsmall : x / 2 ^ 53 ≤ x := div_le_self hx (by norm_num)
  linarith [h.1]

/-- The evaluation of a rounding: the binary exponent, and the bits. -/
theorem roundOff_eq {x : ℚ} (e m : ℤ) (hlo : (2 : ℚ) ^ e ≤ x) (hhi : x < 2 ^ (e + 1))
    (hm : |x - m * 2 ^ (e - 52)| < 2 ^ (e - 53)) : roundOff x = m * 2 ^ (e - 52) := by
  have hx : 0 < x := lt_of_lt_of_le (zpow_pos (by norm_num) e) hlo
  have hlog : Int.log 2 x = e := by
    apply le_antisymm
    · have := (Int.lt_zpow_iff_log_lt (b := 2) (by norm_num) hx).mp (by exact_mod_cast hhi)
      omega
    · exact (Int.zpow_le_iff_le_log (b := 2) (by norm_num) hx).mp (by exact_mod_cast hlo)
  have hulp : ulp x = 2 ^ (e - 52) := by rw [ulp, abs_of_pos hx, hlog]
  have hpos : (0 : ℚ) < 2 ^ (e - 52) := zpow_pos (by norm_num) _
  have hhalf : (2 : ℚ) ^ (e - 53) = 1 / 2 * 2 ^ (e - 52) := by
    rw [show e - 52 = e - 53 + 1 by ring, zpow_add_one₀ (by norm_num)]
    ring
  rw [roundOff, hulp, nearestEven_of_near (n := m)]
  have hscaled : x / 2 ^ (e - 52) - m = (x - m * 2 ^ (e - 52)) / 2 ^ (e - 52) := by
    rw [sub_div, mul_div_cancel_right₀ _ hpos.ne']
  rw [hscaled, abs_div, abs_of_pos hpos, div_lt_iff₀ hpos, ← hhalf]
  exact hm

/-- Integers of 53 bits are exact. -/
theorem roundOff_natCast {n : ℕ} (hn : n < 2 ^ 53) : roundOff n = n := by
  by_cases h0 : n = 0
  · have h := abs_roundOff_sub_le 0
    subst h0
    simpa using h
  · have hlog : Int.log 2 |(n : ℚ)| = Nat.log 2 n := by
      rw [abs_of_nonneg (by positivity), Int.log_natCast]
    have hle : Nat.log 2 n ≤ 52 := by
      have := Nat.log_lt_of_lt_pow h0 hn
      omega
    -- the unit is a half, a quarter and so on, so the number is so many of them
    have hulp : ulp n = 1 / 2 ^ (52 - Nat.log 2 n) := by
      rw [ulp, hlog, show (Nat.log 2 n : ℤ) - 52 = -((52 - Nat.log 2 n : ℕ) : ℤ) by omega,
        zpow_neg, zpow_natCast, one_div]
    have hwhole : (n : ℚ) / ulp n = ((n * 2 ^ (52 - Nat.log 2 n) : ℕ) : ℤ) := by
      rw [hulp]
      push_cast
      rw [div_div_eq_mul_div, div_one]
    rw [roundOff, hwhole, nearestEven_intCast, ← hwhole, div_mul_cancel₀ _ (ulp_pos _).ne']

/-! ## Rounding errors -/

/-- What a rounding may leave of a number, at least. -/
def kept : ℚ := 1 - 1 / 2 ^ 53

theorem kept_pos : 0 < kept := by norm_num [kept]

theorem kept_le_one : kept ≤ 1 := by norm_num [kept]

/-- Two numbers that are the same but for `k` rounding errors. -/
structure Within (k : ℕ) (x y : ℚ) : Prop where
  nonneg : 0 ≤ x
  nonneg' : 0 ≤ y
  le : kept ^ k * x ≤ y
  ge : kept ^ k * y ≤ x

namespace Within

variable {j k : ℕ} {x y u v : ℚ}

theorem refl (hx : 0 ≤ x) : Within 0 x x := ⟨hx, hx, by simp, by simp⟩

theorem mono (h : Within j x y) (hjk : j ≤ k) : Within k x y := by
  have hpow : kept ^ k ≤ kept ^ j := pow_le_pow_of_le_one kept_pos.le kept_le_one hjk
  exact ⟨h.nonneg, h.nonneg', (mul_le_mul_of_nonneg_right hpow h.nonneg).trans h.le,
    (mul_le_mul_of_nonneg_right hpow h.nonneg').trans h.ge⟩

/-- One more rounding. -/
theorem roundOff (h : Within k x y) : Within (k + 1) x (roundOff y) := by
  have hround := abs_roundOff_sub_le y
  rw [abs_of_nonneg h.nonneg', abs_le] at hround
  have hpow : 0 ≤ kept ^ k := pow_nonneg kept_pos.le k
  have hlo : kept * y ≤ Binary64.roundOff y := by
    unfold kept
    linarith [hround.1]
  have hhi : kept * Binary64.roundOff y ≤ y := by
    have hle : Binary64.roundOff y ≤ y * (1 + 1 / 2 ^ 53) := by linarith [hround.2]
    have hprod : kept * (y * (1 + 1 / 2 ^ 53)) ≤ y := by
      have : kept * (y * (1 + 1 / 2 ^ 53)) = y - y / 2 ^ 106 := by
        unfold kept
        ring
      rw [this]
      have : 0 ≤ y / 2 ^ 106 := div_nonneg h.nonneg' (by norm_num)
      linarith
    exact (mul_le_mul_of_nonneg_left hle kept_pos.le).trans hprod
  refine ⟨h.nonneg, roundOff_nonneg h.nonneg', ?_, ?_⟩
  · calc kept ^ (k + 1) * x = kept * (kept ^ k * x) := by ring
      _ ≤ kept * y := mul_le_mul_of_nonneg_left h.le kept_pos.le
      _ ≤ Binary64.roundOff y := hlo
  · calc kept ^ (k + 1) * Binary64.roundOff y
          = kept ^ k * (kept * Binary64.roundOff y) := by ring
      _ ≤ kept ^ k * y := mul_le_mul_of_nonneg_left hhi hpow
      _ ≤ x := h.ge

theorem add (h : Within k x y) (h' : Within k u v) : Within k (x + u) (y + v) := by
  refine ⟨add_nonneg h.nonneg h'.nonneg, add_nonneg h.nonneg' h'.nonneg', ?_, ?_⟩
  · rw [mul_add]
    exact add_le_add h.le h'.le
  · rw [mul_add]
    exact add_le_add h.ge h'.ge

theorem mul (h : Within j x y) (h' : Within k u v) : Within (j + k) (x * u) (y * v) := by
  have hj : 0 ≤ kept ^ j := pow_nonneg kept_pos.le j
  have hk : 0 ≤ kept ^ k := pow_nonneg kept_pos.le k
  refine ⟨mul_nonneg h.nonneg h'.nonneg, mul_nonneg h.nonneg' h'.nonneg', ?_, ?_⟩
  · rw [pow_add, mul_mul_mul_comm]
    exact mul_le_mul h.le h'.le (mul_nonneg hk h'.nonneg) h.nonneg'
  · rw [pow_add, mul_mul_mul_comm]
    exact mul_le_mul h.ge h'.ge (mul_nonneg hk h'.nonneg') h.nonneg

theorem inv (h : Within k x y) : Within k x⁻¹ y⁻¹ := by
  have hpow : 0 < kept ^ k := pow_pos kept_pos k
  rcases h.nonneg.eq_or_lt with hx | hx
  · -- nothing is within rounding errors of zero
    have hy : y ≤ 0 := by
      have hge := h.ge
      rw [← hx] at hge
      exact nonpos_of_mul_nonpos_right hge hpow
    rw [← hx, le_antisymm hy h.nonneg', inv_zero]
    exact (refl le_rfl).mono (Nat.zero_le k)
  · have hy : 0 < y := lt_of_lt_of_le (mul_pos hpow hx) h.le
    refine ⟨(inv_pos.mpr hx).le, (inv_pos.mpr hy).le, ?_, ?_⟩
    · rw [← div_eq_mul_inv, ← one_div, div_le_div_iff₀ hx hy, one_mul]
      exact h.ge
    · rw [← div_eq_mul_inv, ← one_div, div_le_div_iff₀ hy hx, one_mul]
      exact h.le

theorem div (h : Within j x y) (h' : Within k u v) : Within (j + k) (x / u) (y / v) := by
  rw [div_eq_mul_inv, div_eq_mul_inv]
  exact h.mul h'.inv

/-- So many rounding errors are so much of the number. -/
theorem abs_sub_le (h : Within k x y) (hk : k ≤ 2 ^ 52) : |y - x| ≤ x * (k / 2 ^ 52) := by
  have hk' : (k : ℚ) / 2 ^ 53 ≤ 1 / 2 := by
    rw [div_le_iff₀ (by norm_num)]
    have : (k : ℚ) ≤ 2 ^ 52 := by exact_mod_cast hk
    linarith
  have hpow : 1 - (k : ℚ) / 2 ^ 53 ≤ kept ^ k := by
    have hbernoulli := one_add_mul_le_pow (show (-2 : ℚ) ≤ -(1 / 2 ^ 53) by norm_num) k
    rw [← sub_eq_add_neg] at hbernoulli
    calc 1 - (k : ℚ) / 2 ^ 53 = 1 + (k : ℚ) * -(1 / 2 ^ 53) := by ring
      _ ≤ kept ^ k := hbernoulli
  have hle : x - x * (k / 2 ^ 53) ≤ y := by
    have := (mul_le_mul_of_nonneg_right hpow h.nonneg).trans h.le
    linarith
  have hge : y - y * (k / 2 ^ 53) ≤ x := by
    have := (mul_le_mul_of_nonneg_right hpow h.nonneg').trans h.ge
    linarith
  -- the larger number is at most twice the smaller, so its errors are too
  have htwice : y ≤ 2 * x := by
    have := mul_le_mul_of_nonneg_left hk' h.nonneg'
    linarith
  have herror : y * (k / 2 ^ 53) ≤ x * (k / 2 ^ 52) := by
    have := mul_le_mul_of_nonneg_right htwice (show (0 : ℚ) ≤ k / 2 ^ 53 by positivity)
    calc y * (k / 2 ^ 53) ≤ 2 * x * (k / 2 ^ 53) := this
      _ = x * (k / 2 ^ 52) := by ring
  have hsmall : x * (k / 2 ^ 53) ≤ x * (k / 2 ^ 52) := by
    apply mul_le_mul_of_nonneg_left _ h.nonneg
    exact div_le_div_of_nonneg_left (by positivity) (by norm_num) (by norm_num)
  rw [abs_le]
  constructor <;> linarith

/-- A sum taken from the left, rounded off at every step, of numbers that are
within `j` errors of others. -/
theorem foldl_add {α : Type*} {f g : α → ℚ} (l : List α) (hl : ∀ a ∈ l, Within j (f a) (g a))
    (hxy : Within k x y) (hjk : j ≤ k) :
    Within (k + l.length) (x + (l.map f).sum)
      ((l.map g).foldl (fun p c => Binary64.roundOff (p + c)) y) := by
  induction l generalizing k x y with
  | nil => simpa using hxy
  | cons a l ih =>
      have ha := (hl a List.mem_cons_self).mono hjk
      have hrest := ih (fun b hb => hl b (List.mem_cons_of_mem a hb)) (hxy.add ha).roundOff
        (hjk.trans (Nat.le_succ k))
      rw [List.map_cons, List.map_cons, List.foldl_cons, List.sum_cons, List.length_cons,
        show k + (l.length + 1) = k + 1 + l.length by omega, ← add_assoc]
      exact hrest

end Within

end Binary64
