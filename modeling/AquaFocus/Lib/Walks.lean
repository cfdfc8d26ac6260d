/-
Walks along a set, each step past a bound of its own.

From `n`, and with the bounds `bs` one after the other, `Walks A n bs ms` visits
`ms`: each the least element of `A` above the one before and above its bound. An
element that is left out lies at or below a bound (`Walks.skipped`), and where no
bound is ahead of the walk nothing is left out (`Walks.all`).
-/
import AquaFocus.Lib.Loop

set_option autoImplicit false

namespace Loop

variable {α : Type*} [LinearOrder α]

inductive Walks (A : Set α) : α → List α → List α → Prop
  | nil {n : α} : Walks A n [] []
  | cons {n b m : α} {bs ms : List α} :
      IsLeast {x | x ∈ A ∧ n < x ∧ b < x} m → Walks A m bs ms → Walks A n (b :: bs) (m :: ms)

namespace Walks

variable {A B : Set α} {n : α} {bs ms : List α}

theorem lt (h : Walks A n bs ms) : ∀ m ∈ ms, n < m := by
  induction h with
  | nil => exact fun m hm => absurd hm List.not_mem_nil
  | cons hleast _ ih =>
      intro x hx
      rcases List.mem_cons.mp hx with rfl | hx
      · exact hleast.1.2.1
      · exact hleast.1.2.1.trans (ih x hx)

theorem mem (h : Walks A n bs ms) : ∀ m ∈ ms, m ∈ A := by
  induction h with
  | nil => exact fun m hm => absurd hm List.not_mem_nil
  | cons hleast _ ih =>
      intro x hx
      rcases List.mem_cons.mp hx with rfl | hx
      · exact hleast.1.1
      · exact ih x hx

/-- A walk goes up. -/
theorem pairwise (h : Walks A n bs ms) : (n :: ms).Pairwise (· < ·) := by
  induction h with
  | nil => exact List.pairwise_singleton _ _
  | cons hleast hrest ih =>
      refine List.pairwise_cons.mpr ⟨fun x hx => ?_, ih⟩
      exact (Walks.cons hleast hrest).lt x hx

/-- Each step passes its bound. -/
theorem past (h : Walks A n bs ms) : List.Forall₂ (· < ·) bs ms := by
  induction h with
  | nil => exact .nil
  | cons hleast _ ih => exact .cons hleast.1.2.2 ih

/-- What a step leaves out, its bound covers. -/
theorem skipped (h : Walks A n bs ms) {x : α} (hx : x ∈ A) (hn : n < x) (hms : x ∉ ms) :
    ∀ m ∈ ms, x < m → ∃ step ∈ bs.zip ms, x ≤ step.1 ∧ x < step.2 := by
  induction h with
  | nil => exact fun m hm => absurd hm List.not_mem_nil
  | @cons n b m bs ms hleast hrest ih =>
      intro m' hm' hlt
      rw [List.mem_cons, not_or] at hms
      rcases lt_or_gt_of_ne hms.1 with hbefore | hafter
      · -- the first step leaves it out
        refine ⟨(b, m), List.mem_cons_self, ?_, hbefore⟩
        by_contra hb
        exact absurd (hleast.2 ⟨hx, hn, not_le.mp hb⟩) (not_le.mpr hbefore)
      · rcases List.mem_cons.mp hm' with rfl | hm'
        · exact absurd hlt (not_lt.mpr hafter.le)
        · obtain ⟨step, hstep, hcovered⟩ := ih hafter hms.2 m' hm' hlt
          exact ⟨step, List.mem_cons_of_mem _ hstep, hcovered⟩

/-- Where no bound is ahead of the walk, it visits all there is on its way. -/
theorem all (h : Walks A n bs ms) (hbounds : ∀ step ∈ bs.zip (n :: ms), step.1 ≤ step.2) {x : α}
    (hx : x ∈ A) (hn : n < x) : ∀ m ∈ ms, x ≤ m → x ∈ ms := by
  induction h with
  | nil => exact fun m hm => absurd hm List.not_mem_nil
  | @cons n b m bs ms hleast hrest ih =>
      intro m' hm' hle
      have hb : b ≤ n := hbounds (b, n) List.mem_cons_self
      rcases lt_trichotomy x m with hbefore | rfl | hafter
      · exact absurd (hleast.2 ⟨hx, hn, hb.trans_lt hn⟩) (not_le.mpr hbefore)
      · exact List.mem_cons_self
      · refine List.mem_cons_of_mem _ ?_
        rcases List.mem_cons.mp hm' with rfl | hm'
        · exact absurd hle (not_le.mpr hafter)
        · exact ih (fun step hstep => hbounds step (List.mem_cons_of_mem _ hstep)) hafter m' hm' hle

/-- What lies behind a walk does not matter to it. -/
theorem congr (h : Walks A n bs ms) (hAB : ∀ x, n < x → (x ∈ A ↔ x ∈ B)) : Walks B n bs ms := by
  induction h with
  | nil => exact .nil
  | @cons n b m bs ms hleast _ ih =>
      refine .cons ⟨⟨(hAB m hleast.1.2.1).mp hleast.1.1, hleast.1.2⟩, fun x hx => ?_⟩
        (ih fun x hx => hAB x (hleast.1.2.1.trans hx))
      exact hleast.2 ⟨(hAB x hx.2.1).mpr hx.1, hx.2⟩

end Walks

end Loop
