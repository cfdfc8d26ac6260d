/-
Searches that may read their place one short.

A search walks a set `A` upwards by a step `g`, which takes it from where it
stands to the next element. Where it lags it takes its place for the one before,
and goes on from its own place by the distance it finds there. So it leaves `A`,
and comes back to it, and stops at the first place it visits that is not before
a bound.

The sets of interest have no lonely elements: after a gap come two in a row
(`hpair`). Such a search never misses the last element before the bound by much,
and `whileLoop_lagStep` says where it stops.
-/
import AquaFocus.Lib.Loop

set_option autoImplicit false

namespace Loop

/-- One step of such a search. -/
def lagStep (g : ℤ → ℤ) (lag : ℤ → Prop) [DecidablePred lag] (q : ℤ) : ℤ :=
  if lag q then g (q - 1) + 1 else g q

/-- Where the search stops, when it starts at `b` and `p` is the last element of `A` before
the place `Q` it may stop at: at the next element of `A`, unless it lags at `p`.
Then it goes to the place after `p` first, and where it lags there too, to the
one after the next element. -/
def LagStop (g : ℤ → ℤ) (lag : ℤ → Prop) (b Q p r : ℤ) : Prop :=
  (p ≤ b ∨ ¬ lag p ∨ (p + 1 < Q ∧ ¬ lag (p + 1))) ∧ r = g p
    ∨ b < p ∧ lag p ∧ p + 1 = Q ∧ r = p + 1
    ∨ b < p ∧ lag p ∧ p + 1 < Q ∧ lag (p + 1) ∧ r = g p + 1

section Stop

variable {g : ℤ → ℤ} {lag : ℤ → Prop} {b Q p r : ℤ}

theorem LagStop.le (h : LagStop g lag b Q p r) (hQ : Q ≤ g p) : Q ≤ r := by
  rcases h with ⟨-, rfl⟩ | ⟨-, -, heq, rfl⟩ | ⟨-, -, -, -, rfl⟩
  · exact hQ
  · exact heq.ge
  · omega

/-- There is one stop. -/
theorem LagStop.unique {r' : ℤ} (h : LagStop g lag b Q p r) (h' : LagStop g lag b Q p r') :
    r = r' := by
  rcases h with ⟨hon, rfl⟩ | ⟨hb, hlag, heq, rfl⟩ | ⟨hb, hlag, hlt, hlag', rfl⟩
  · rcases h' with ⟨-, rfl⟩ | ⟨hb, hlag, heq, -⟩ | ⟨hb, hlag, -, hlag', -⟩
    · rfl
    · rcases hon with hle | hn | ⟨hlt, -⟩
      · exact absurd hb (not_lt.mpr hle)
      · exact absurd hlag hn
      · exact absurd heq hlt.ne
    · rcases hon with hle | hn | ⟨-, hn⟩
      · exact absurd hb (not_lt.mpr hle)
      · exact absurd hlag hn
      · exact absurd hlag' hn
  · rcases h' with ⟨hle | hn | ⟨hlt, -⟩, -⟩ | ⟨-, -, -, rfl⟩ | ⟨-, -, hlt, -⟩
    · exact absurd hb (not_lt.mpr hle)
    · exact absurd hlag hn
    · exact absurd heq hlt.ne
    · rfl
    · exact absurd heq hlt.ne
  · rcases h' with ⟨hle | hn | ⟨-, hn⟩, -⟩ | ⟨-, -, heq, -⟩ | ⟨-, -, -, -, rfl⟩
    · exact absurd hb (not_lt.mpr hle)
    · exact absurd hlag hn
    · exact absurd hlag' hn
    · exact absurd heq hlt.ne
    · rfl

/-- A search that never lags stops at the next element. -/
theorem LagStop.eq_of_not_lag (h : LagStop g lag b Q p r) (hlag : ∀ n, ¬ lag n) : r = g p := by
  rcases h with ⟨-, rfl⟩ | ⟨-, hp, -⟩ | ⟨-, hp, -⟩
  · rfl
  · exact absurd hp (hlag p)
  · exact absurd hp (hlag p)

end Stop

variable {A : Set ℤ} {g : ℤ → ℤ} {lag : ℤ → Prop} [DecidablePred lag]

/-- Between two neighbours of `A` there is nothing of it. -/
theorem IsNext.eq_of_notMem (hg : ∀ n, IsNext A n (g n)) {m n : ℤ} (hmn : m ≤ n)
    (hgap : ∀ x, m < x → x ≤ n → x ∉ A) : g n = g m := by
  apply le_antisymm
  · -- the next after `m` is not up to `n`, so it is after `n`
    refine (hg n).le (hg m).mem ?_
    by_contra hle
    exact hgap _ (hg m).lt (not_lt.mp hle) (hg m).mem
  · exact (hg m).le (hg n).mem (hmn.trans_lt (hg n).lt)

/-- The next element after the last one before a bound is not before it. -/
theorem IsNext.bound_le {p n Q : ℤ} (hn : IsNext A p n)
    (hp : IsGreatest {n | n ∈ A ∧ n < Q} p) : Q ≤ n := by
  by_contra hlt
  exact absurd hn.lt (not_lt.mpr (hp.2 ⟨hn.mem, not_le.mp hlt⟩))

/-- A step from below an element of `A` does not go past it, but for one place, and
only to another element. -/
theorem lagStep_le (lag : ℤ → Prop) [DecidablePred lag] (hg : ∀ n, IsNext A n (g n))
    (hpair : ∀ n, n ∉ A → g n + 1 ∈ A) {p q : ℤ} (hp : p ∈ A) (hq : q < p) :
    lagStep g lag q ≤ p ∨ lagStep g lag q = p + 1 ∧ p + 1 ∈ A := by
  by_cases hlag : lag q
  · have hle : g (q - 1) ≤ p := (hg (q - 1)).le hp (by omega)
    rw [lagStep, if_pos hlag]
    by_cases heq : g (q - 1) = p
    · -- then `q` itself is not in `A`, and the element after it has a neighbour
      have hqA : q ∉ A := fun hmem => by
        have hleq := (hg (q - 1)).le hmem (by omega)
        omega
      have hgq : g q = p := by
        rw [← heq]
        apply IsNext.eq_of_notMem hg (by omega)
        intro x hlo hhi
        rwa [show x = q by omega]
      exact .inr ⟨by rw [heq], hgq ▸ hpair q hqA⟩
    · exact .inl (by omega)
  · rw [lagStep, if_neg hlag]
    exact .inl ((hg q).le hp hq)

/-- From an element of `A`, a step that lags is a step of one. -/
theorem lagStep_mem (hg : ∀ n, IsNext A n (g n)) {p : ℤ} (hp : p ∈ A) (hlag : lag p) :
    lagStep g lag p = p + 1 := by
  have hle : g (p - 1) ≤ p := (hg (p - 1)).le hp (by omega)
  have hlt := (hg (p - 1)).lt
  rw [lagStep, if_pos hlag]
  omega

/-- What holds on the way: up to the last element `p` before the bound, at the place
after `p`, or at the stop. -/
def LagAt (g : ℤ → ℤ) (lag : ℤ → Prop) (b Q p q : ℤ) : Prop :=
  q ≤ p ∨ (q = p + 1 ∧ lag p) ∧ p + 1 < Q ∨ LagStop g lag b Q p q

/-- One round keeps it. -/
theorem LagAt.step (hg : ∀ n, IsNext A n (g n)) (hpair : ∀ n, n ∉ A → g n + 1 ∈ A) {b Q p : ℤ}
    (hp : IsGreatest {n | n ∈ A ∧ n < Q} p) (hbp : b < p) {q : ℤ} (hq : LagAt g lag b Q p q)
    (hqQ : q < Q) : LagAt g lag b Q p (lagStep g lag q) := by
  have hpast := (hg p).bound_le hp
  obtain ⟨⟨hpA, hpQ⟩, hmax⟩ := hp
  have hsucc : p + 1 ∈ A → p + 1 = Q := fun hmem => by
    by_contra hne
    have hle := hmax ⟨hmem, show p + 1 < Q by omega⟩
    omega
  rcases hq with hq | ⟨⟨rfl, hlag⟩, -⟩ | hq
  · rcases hq.lt_or_eq with hlt | rfl
    · rcases lagStep_le lag hg hpair hpA hlt with hle | ⟨heq, hmem⟩
      · exact .inl hle
      · -- past `p`, onto an element right after it, which is the bound
        have hnext : g p = p + 1 :=
          le_antisymm ((hg p).le hmem (Int.lt_succ p)) (hg p).lt
        rw [heq]
        by_cases hlag : lag p
        · exact .inr (.inr (.inr (.inl ⟨hbp, hlag, hsucc hmem, rfl⟩)))
        · exact .inr (.inr (.inl ⟨.inr (.inl hlag), hnext.symm⟩))
    · by_cases hlag : lag q
      · rw [lagStep_mem hg hpA hlag]
        rcases (show q + 1 ≤ Q from hpQ).lt_or_eq with hlt | heq
        · exact .inr (.inl ⟨⟨rfl, hlag⟩, hlt⟩)
        · exact .inr (.inr (.inr (.inl ⟨hbp, hlag, heq, rfl⟩)))
      · rw [lagStep, if_neg hlag]
        exact .inr (.inr (.inl ⟨.inr (.inl hlag), rfl⟩))
  · -- the place after `p` is not in `A`, so it has the same next element
    have hgp : g (p + 1) = g p := by
      apply IsNext.eq_of_notMem hg (by omega)
      intro x hlo hhi hx
      rw [show x = p + 1 by omega] at hx
      have heq := hsucc hx
      omega
    by_cases hlag' : lag (p + 1)
    · rw [lagStep, if_pos hlag', add_sub_cancel_right]
      exact .inr (.inr (.inr (.inr ⟨hbp, hlag, hqQ, hlag', rfl⟩)))
    · rw [lagStep, if_neg hlag', hgp]
      exact .inr (.inr (.inl ⟨.inr (.inr ⟨hqQ, hlag'⟩), rfl⟩))
  · -- the stop is not below the bound
    exact absurd hqQ (not_lt.mpr (hq.le hpast))

/-- The search stops at the stop. -/
theorem whileLoop_lagStep (hg : ∀ n, IsNext A n (g n)) (hpair : ∀ n, n ∉ A → g n + 1 ∈ A)
    {b Q p : ℤ} (hb : ¬ lag b) (hp : IsGreatest {n | n ∈ A ∧ n < max (b + 1) Q} p) {fuel : ℕ}
    {r : ℤ}
    (h : whileLoop (fun q => decide (q < Q)) (lagStep g lag) fuel (lagStep g lag b) = some r) :
    LagStop g lag b Q p r := by
  have hstart : lagStep g lag b = g b := if_neg hb
  have hpast := (hg p).bound_le hp
  rw [hstart] at h
  rcases le_or_gt p b with hpb | hbp
  · -- no element of `A` between: the first step is the last
    have hgb : g b = g p := by
      apply IsNext.eq_of_notMem hg hpb
      intro x hlo hhi hx
      exact absurd (hp.2 ⟨hx, by omega⟩) (not_le.mpr hlo)
    rw [hgb, whileLoop_of_false _ _ (by rw [decide_eq_false_iff_not]; omega),
      Option.some.injEq] at h
    exact .inl ⟨.inl hpb, h.symm⟩
  · have hQ : max (b + 1) Q = Q := by
      have hlt := hp.1.2
      omega
    rw [hQ] at hp
    obtain ⟨hI, hend⟩ := whileLoop_invariant (LagAt g lag b Q p)
      (fun q hq hqQ => hq.step hg hpair hp hbp (of_decide_eq_true hqQ))
      (.inl ((hg b).le hp.1.1 hbp)) h
    rw [decide_eq_false_iff_not] at hend
    rcases hI with hI | hI | hI
    · exact absurd (hI.trans_lt hp.1.2) hend
    · exact absurd (hI.1.1 ▸ hI.2) hend
    · exact hI

end Loop
