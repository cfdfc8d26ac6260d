/-
Programs that are lists of calls, each of which may throw.

`perform exec cs s` makes the calls `cs` in order from `s` and stops at the
first that throws, keeping what the calls before it did: there is no rollback.
A program killed between two calls is a prefix of the list, so what holds of
`perform` on every prefix holds wherever the program stops.

The rules below are the ones a program is reasoned about with: how it composes
(`perform_append`), what it keeps (`perform_invariant`), what it leaves alone
(`view_perform`), and what it is seen to do on the way (`trace`).
-/
import Mathlib.Data.List.Basic

set_option autoImplicit false

namespace Calls

variable {ω σ φ τ : Type*} {exec : ω → σ → Except φ σ}

/-! ## Performing -/

/-- The state after the calls, and what was thrown, if anything was. -/
def perform (exec : ω → σ → Except φ σ) : List ω → σ → σ × Option φ
  | [], s => (s, none)
  | c :: cs, s =>
      match exec c s with
      | .error f => (s, some f)
      | .ok s' => perform exec cs s'

@[simp] theorem perform_nil (s : σ) : perform exec [] s = (s, none) := rfl

theorem perform_cons_ok {c : ω} {s s' : σ} (cs : List ω) (h : exec c s = .ok s') :
    perform exec (c :: cs) s = perform exec cs s' := by
  rw [perform, h]

theorem perform_cons_error {c : ω} {s : σ} {f : φ} (cs : List ω) (h : exec c s = .error f) :
    perform exec (c :: cs) s = (s, some f) := by
  rw [perform, h]

/-- What comes after a part that did not throw runs from where it ended. -/
theorem perform_append {cs : List ω} {s s' : σ} (ds : List ω)
    (h : perform exec cs s = (s', none)) :
    perform exec (cs ++ ds) s = perform exec ds s' := by
  induction cs generalizing s with
  | nil =>
      rw [perform_nil, Prod.mk.injEq] at h
      rw [h.1]
      rfl
  | cons c cs ih =>
      rw [List.cons_append]
      cases hc : exec c s with
      | error f =>
          rw [perform_cons_error cs hc] at h
          exact absurd h (by simp)
      | ok t =>
          rw [perform_cons_ok cs hc] at h
          rw [perform_cons_ok _ hc]
          exact ih h

/-! ## What a program keeps -/

/-- An invariant of every call is one of the program, also where it throws. -/
theorem perform_invariant {Inv : σ → Prop} {cs : List ω}
    (h : ∀ c ∈ cs, ∀ s s', Inv s → exec c s = .ok s' → Inv s') {s : σ} (hs : Inv s) :
    Inv (perform exec cs s).1 := by
  induction cs generalizing s with
  | nil => exact hs
  | cons c cs ih =>
      cases hc : exec c s with
      | error f =>
          rw [perform_cons_error cs hc]
          exact hs
      | ok s' =>
          rw [perform_cons_ok cs hc]
          exact ih (fun c' hc' => h c' (List.mem_cons_of_mem c hc'))
            (h c List.mem_cons_self s s' hs hc)

/-- What no call changes, the program does not change. -/
theorem view_perform (view : σ → τ) {cs : List ω}
    (h : ∀ c ∈ cs, ∀ s s', exec c s = .ok s' → view s' = view s) (s : σ) :
    view (perform exec cs s).1 = view s := by
  have hkeep : ∀ c ∈ cs, ∀ s₁ s₂, view s₁ = view s → exec c s₁ = .ok s₂ → view s₂ = view s :=
    fun c hc s₁ s₂ h₁ h₂ => (h c hc s₁ s₂ h₂).trans h₁
  exact perform_invariant hkeep rfl

/-! ## Where a program stops

Two rules for a program cut after `k` calls, `A` being a part that does not
change what is looked at: a cut inside `A` shows nothing, and a cut after it is a
cut of what follows. -/

theorem view_perform_take (view : σ → τ) {A : List ω} (B : List ω) {k : ℕ} (hk : k ≤ A.length)
    (h : ∀ c ∈ A, ∀ s s', exec c s = .ok s' → view s' = view s) (s : σ) :
    view (perform exec ((A ++ B).take k) s).1 = view s := by
  rw [List.take_append_of_le_length hk]
  exact view_perform view (fun c hc => h c (List.mem_of_mem_take hc)) s

theorem perform_take {A B : List ω} {k : ℕ} {s s' : σ} (hk : A.length ≤ k)
    (h : perform exec A s = (s', none)) :
    perform exec ((A ++ B).take k) s = perform exec (B.take (k - A.length)) s' := by
  rw [List.take_append, List.take_of_length_le hk, perform_append _ h]

/-! ## What a program is seen to do -/

/-- What the calls are seen to do, each in the state it is made in. -/
def trace (exec : ω → σ → Except φ σ) (seen : ω → σ → List τ) : List ω → σ → List τ
  | [], _ => []
  | c :: cs, s =>
      seen c s ++
        match exec c s with
        | .error _ => []
        | .ok s' => trace exec seen cs s'

/-- What holds of all that is seen of each call, under an invariant of the
calls, holds of all that is seen of the program. -/
theorem forall_mem_trace {Inv : σ → Prop} {P : τ → Prop} {seen : ω → σ → List τ} {cs : List ω}
    (hseen : ∀ c ∈ cs, ∀ s, Inv s → ∀ x ∈ seen c s, P x)
    (hinv : ∀ c ∈ cs, ∀ s s', Inv s → exec c s = .ok s' → Inv s') {s : σ} (hs : Inv s) :
    ∀ x ∈ trace exec seen cs s, P x := by
  induction cs generalizing s with
  | nil =>
      intro x hx
      exact absurd hx List.not_mem_nil
  | cons c cs ih =>
      intro x hx
      rw [trace, List.mem_append] at hx
      rcases hx with hx | hx
      · exact hseen c List.mem_cons_self s hs x hx
      · cases hc : exec c s with
        | error f =>
            rw [hc] at hx
            exact absurd hx List.not_mem_nil
        | ok s' =>
            rw [hc] at hx
            exact ih (fun c' hc' => hseen c' (List.mem_cons_of_mem c hc'))
              (fun c' hc' => hinv c' (List.mem_cons_of_mem c hc'))
              (hinv c List.mem_cons_self s s' hs hc) x hx

end Calls
